import Mathlib.Tactic.Ring
import PropSchema.Binary64.Shortest
/-!
Rounding to the nearest rank. A magnitude is rounded to its own rank, and rounding depends on the
value of a quotient or a decimal alone, not on how it is written. So the decimal that is chosen for
a number reads back as the number.
-/
namespace PropSchema.Binary64

/-- Ranks below 2^53 are their own magnitude. -/
theorem unitsOfRank_of_lt {rank : Nat} (h : rank < 2 ^ 53) : unitsOfRank rank = rank := by
  have hshift : rank / Nat.pow 2 52 - 1 = 0 := by
    have : rank / 2 ^ 52 < 2 := by omega
    exact Nat.sub_eq_zero_of_le (Nat.le_of_lt_succ this)
  simp [unitsOfRank, hshift]

/-- From 2^52 on a rank is that of a mantissa in the binade of a shift. -/
theorem exists_mantissa (rank : Nat) (h : 2 ^ 52 ≤ rank) : ∃ mantissa shift,
    2 ^ 52 ≤ mantissa ∧ mantissa < 2 ^ 53 ∧ rank = shift * 2 ^ 52 + mantissa := by
  refine ⟨rank % 2 ^ 52 + 2 ^ 52, rank / 2 ^ 52 - 1, ?_, ?_, ?_⟩ <;> omega

section Mantissa
variable {mantissa shift : Nat} (hlow : 2 ^ 52 ≤ mantissa) (hhigh : mantissa < 2 ^ 53)
include hlow hhigh

theorem unitsOfRank_mantissa :
    unitsOfRank (shift * 2 ^ 52 + mantissa) = mantissa * 2 ^ shift := by
  have hshift : (shift * 2 ^ 52 + mantissa) / Nat.pow 2 52 - 1 = shift := by
    change (shift * 2 ^ 52 + mantissa) / 2 ^ 52 - 1 = shift
    omega
  rw [unitsOfRank, hshift, Nat.shiftLeft_eq]
  change (shift * 2 ^ 52 + mantissa - shift * 2 ^ 52) * 2 ^ shift = _
  rw [Nat.add_sub_cancel_left]

theorem log2_mantissa : (mantissa * 2 ^ shift).log2 = 52 + shift := by
  have hpos : 0 < mantissa * 2 ^ shift := Nat.mul_pos (by omega) (Nat.two_pow_pos shift)
  rw [Nat.log2_eq_iff (by omega), Nat.add_right_comm, Nat.pow_add, Nat.pow_add]
  exact ⟨Nat.mul_le_mul_right _ hlow, Nat.mul_lt_mul_of_pos_right hhigh (Nat.two_pow_pos shift)⟩

end Mantissa

theorem floorRank_unitsOfRank (rank : Nat) : floorRank (unitsOfRank rank) = rank := by
  by_cases h : rank < 2 ^ 53
  · have hlog : rank.log2 - 52 = 0 := by
      by_cases h0 : rank = 0
      · rw [h0, Nat.log2_zero]
      · have := (Nat.log2_lt h0).mpr h
        omega
    rw [unitsOfRank_of_lt h, floorRank, hlog, Nat.shiftRight_zero, Nat.zero_mul, Nat.zero_add]
  · obtain ⟨mantissa, shift, hlow, hhigh, rfl⟩ := exists_mantissa rank (by omega)
    rw [unitsOfRank_mantissa hlow hhigh, floorRank, log2_mantissa hlow hhigh,
      Nat.add_sub_cancel_left, Nat.shiftRight_eq_div_pow,
      Nat.mul_div_cancel _ (Nat.two_pow_pos shift)]
    rfl

/-- Every rank has a larger magnitude than the one before. -/
theorem unitsOfRank_lt_succ (rank : Nat) : unitsOfRank rank < unitsOfRank (rank + 1) := by
  by_cases h : rank + 1 < 2 ^ 53
  · rw [unitsOfRank_of_lt h, unitsOfRank_of_lt (by omega)]
    omega
  · obtain ⟨mantissa, shift, hlow, hhigh, rfl⟩ := exists_mantissa rank (by omega)
    have hpos := Nat.two_pow_pos shift
    by_cases hm : mantissa + 1 < 2 ^ 53
    · rw [Nat.add_assoc, unitsOfRank_mantissa hlow hhigh, unitsOfRank_mantissa (by omega) hm]
      exact Nat.mul_lt_mul_of_pos_right (Nat.lt_succ_self mantissa) hpos
    · -- the next rank opens the next binade
      have hnext : shift * 2 ^ 52 + mantissa + 1 = (shift + 1) * 2 ^ 52 + 2 ^ 52 := by omega
      rw [hnext, unitsOfRank_mantissa hlow hhigh, unitsOfRank_mantissa (Nat.le_refl _) (by decide),
        Nat.pow_succ' (n := shift), ← Nat.mul_assoc]
      exact Nat.mul_lt_mul_of_pos_right hhigh hpos

/-- A magnitude is rounded to its own rank. -/
theorem nearestRank_unitsOfRank (rank : Nat) {den : Nat} (hden : 0 < den) :
    nearestRank (unitsOfRank rank * den) den = rank := by
  have hmiddle : 2 * (unitsOfRank rank * den) <
      den * (unitsOfRank rank + unitsOfRank (rank + 1)) := by
    have hlt := Nat.mul_lt_mul_of_pos_left (unitsOfRank_lt_succ rank) hden
    rw [Nat.mul_add, Nat.mul_comm _ den]
    omega
  rw [nearestRank, Nat.mul_div_cancel _ hden, floorRank_unitsOfRank]
  exact if_pos hmiddle

/-- Rounding depends on the value of a quotient alone. -/
theorem nearestRank_mul {k : Nat} (hk : 0 < k) (num den : Nat) :
    nearestRank (k * num) (k * den) = nearestRank num den := by
  rw [nearestRank, nearestRank, Nat.mul_div_mul_left _ _ hk]
  generalize hlow : floorRank (num / den) = low
  generalize hunits : unitsOfRank low + unitsOfRank (low + 1) = units
  have hcancel : ∀ a b : Nat, k * a < k * b ↔ a < b := fun a b => Nat.mul_lt_mul_left hk
  have hleft : 2 * (k * num) = k * (2 * num) := Nat.mul_left_comm 2 k num
  have hright : k * den * units = k * (den * units) := Nat.mul_assoc k den units
  simp only [hleft, hright, hcancel]

theorem ofRatio_mul {k : Nat} (hk : 0 < k) (negative : Bool) (num den : Nat) :
    ofRatio negative (k * num) (k * den) = ofRatio negative num den := by
  rw [ofRatio, ofRatio, Nat.mul_assoc, nearestRank_mul hk]

theorem decimalLength_le_iff {n k : Nat} (hk : 0 < k) :
    decimalLength n ≤ k ↔ n < 10 ^ k := Nat.length_toDigits_le_iff (by decide) hk

theorem decimalLength_mul_ten {n : Nat} (h : 0 < n) :
    decimalLength (n * 10) = decimalLength n + 1 := by
  have happend := Nat.toDigits_append_toDigits (b := 10) (n := n) (d := 0) (by decide) h (by decide)
  rw [Nat.add_zero, Nat.mul_comm] at happend
  rw [decimalLength, ← happend, List.length_append, Nat.toDigits_zero]
  rfl

/-- A zero at the end of the digits counts as one in the exponent. -/
theorem ofDecimal_mul_ten (negative : Bool) (digits : Nat) (exponent : Int) :
    ofDecimal negative (digits * 10) (exponent - 1) = ofDecimal negative digits exponent := by
  by_cases h0 : digits = 0
  · rw [h0, Nat.zero_mul, ofDecimal, ofDecimal, if_pos rfl, if_pos rfl]
  have hmagnitude : exponent - 1 + (decimalLength (digits * 10) : Int) =
      exponent + (decimalLength digits : Int) := by
    rw [decimalLength_mul_ten (Nat.pos_of_ne_zero h0)]
    omega
  have hratio : (if 0 ≤ exponent - 1
        then ofRatio negative (digits * 10 * Nat.pow 10 (exponent - 1).toNat) 1
        else ofRatio negative (digits * 10) (Nat.pow 10 (-(exponent - 1)).toNat)) =
      if 0 ≤ exponent then ofRatio negative (digits * Nat.pow 10 exponent.toNat) 1
        else ofRatio negative digits (Nat.pow 10 (-exponent).toNat) := by
    -- at the exponent zero a quotient by ten becomes one by one
    rcases Int.lt_trichotomy exponent 0 with hneg | rfl | hpos
    · obtain ⟨k, rfl⟩ : ∃ k : Nat, exponent = -(k : Int) := ⟨exponent.natAbs, by omega⟩
      have hk : (-(-(k : Int) - 1)).toNat = k + 1 := by omega
      have hk' : (- -(k : Int)).toNat = k := by omega
      rw [if_neg (by omega), if_neg (by omega), hk, hk', Nat.mul_comm digits]
      change ofRatio negative (10 * digits) (10 ^ (k + 1)) = ofRatio negative digits (10 ^ k)
      rw [Nat.pow_succ', ofRatio_mul (by decide)]
    · rw [if_neg (by decide), if_pos (Int.le_refl 0), Nat.mul_comm digits]
      change ofRatio negative (10 * digits) (10 * 1) = ofRatio negative (digits * 1) 1
      rw [ofRatio_mul (by decide), Nat.mul_one]
    · obtain ⟨k, rfl⟩ : ∃ k : Nat, exponent = (k : Int) + 1 := ⟨(exponent - 1).toNat, by omega⟩
      have hk : ((k : Int) + 1 - 1).toNat = k := by omega
      have hk' : ((k : Int) + 1).toNat = k + 1 := by omega
      rw [if_pos (by omega), if_pos (by omega), hk, hk']
      change ofRatio negative (digits * 10 * 10 ^ k) 1 = ofRatio negative (digits * 10 ^ (k + 1)) 1
      rw [Nat.pow_succ', Nat.mul_assoc]
  rw [ofDecimal, ofDecimal, if_neg h0, if_neg (Nat.mul_ne_zero h0 (by decide)), hmagnitude, hratio]

theorem ofDecimal_mul_pow (negative : Bool) (digits k : Nat) (exponent : Int) :
    ofDecimal negative (digits * 10 ^ k) (exponent - k) = ofDecimal negative digits exponent := by
  induction k with
  | zero => rw [Nat.pow_zero, Nat.mul_one, Nat.cast_zero, Int.sub_zero]
  | succ k ih =>
      have hexponent : exponent - ((k + 1 : Nat) : Int) = exponent - k - 1 := by omega
      rw [Nat.pow_succ, ← Nat.mul_assoc, hexponent, ofDecimal_mul_ten, ih]

theorem neg_ofRank (rank : Nat) : neg (ofRank false rank) = ofRank true rank := by
  unfold ofRank
  split <;> rfl

/-- The sign of a decimal is the sign of its number. -/
theorem neg_ofDecimal (digits : Nat) (exponent : Int) :
    neg (ofDecimal false digits exponent) = ofDecimal true digits exponent := by
  unfold ofDecimal ofRatio zero
  simp only [apply_ite neg, neg_ofRank]
  rfl

/-- The magnitude of a finite number is below 2^1024. -/
theorem unitsOfRank_lt {rank : Nat} (h : rank < rankBound) : unitsOfRank rank < Nat.pow 2 2098 := by
  by_cases hsmall : rank < 2 ^ 53
  · rw [unitsOfRank_of_lt hsmall]
    exact hsmall.trans (Nat.pow_lt_pow_right (by decide) (by decide))
  · obtain ⟨mantissa, shift, hlow, hhigh, rfl⟩ := exists_mantissa rank (by omega)
    have hshift : shift ≤ 2045 := by
      unfold rankBound at h
      omega
    rw [unitsOfRank_mantissa hlow hhigh]
    calc mantissa * 2 ^ shift < 2 ^ 53 * 2 ^ shift :=
          Nat.mul_lt_mul_of_pos_right hhigh (Nat.two_pow_pos shift)
      _ = 2 ^ (53 + shift) := (Nat.pow_add 2 53 shift).symm
      _ ≤ Nat.pow 2 2098 := Nat.pow_le_pow_right (by decide) (by omega)

theorem unitsOfRank_pos {rank : Nat} (h : 0 < rank) : 0 < unitsOfRank rank := by
  obtain ⟨rank, rfl⟩ : ∃ k, rank = k + 1 := ⟨rank - 1, by omega⟩
  exact Nat.zero_lt_of_lt (unitsOfRank_lt_succ rank)

/-- A decimal that is a magnitude exactly, and neither too large nor too small, is read as it. -/
theorem ofDecimal_of_exact {rank digits k : Nat} (hk : 0 < k) (hdigits : digits ≠ 0)
    (hexact : digits * oneInUnits = unitsOfRank rank * 10 ^ k)
    (hfew : decimalLength digits ≤ k + 310) (hmany : k ≤ decimalLength digits + 330) :
    ofDecimal false digits (-(k : Int)) = ofRank false rank := by
  have hexponent : (- -(k : Int)).toNat = k := by omega
  rw [ofDecimal, if_neg hdigits, if_neg (by omega), if_neg (by omega), if_neg (by omega), hexponent,
    ofRatio, hexact, Nat.pow_eq, nearestRank_unitsOfRank rank (Nat.pow_pos (by decide))]

/-- The exact decimal of a magnitude reads back as the magnitude. -/
theorem ofDecimal_exactDecimal {rank : Nat} (hpos : 0 < rank) (h : rank < rankBound) :
    ofDecimal false (exactDecimal rank).1 (exactDecimal rank).2 = ofRank false rank := by
  have hten : Nat.pow 5 1074 * oneInUnits = Nat.pow 10 1074 := by decide +kernel
  have hlarge : Nat.pow 2 2098 * Nat.pow 5 1074 < Nat.pow 10 1384 := by decide +kernel
  have hsmall : Nat.pow 10 743 ≤ Nat.pow 5 1074 := by decide +kernel
  have hdecimal : exactDecimal rank = (unitsOfRank rank * Nat.pow 5 1074, -((1074 : Nat) : Int)) := rfl
  rw [hdecimal]
  dsimp only
  -- from here on the powers are numbers of which only these facts are known
  generalize Nat.pow 5 1074 = five at hten hlarge hsmall
  have hunits := unitsOfRank_pos hpos
  have hfive : 0 < five := (Nat.pow_pos (n := 743) (by decide)).trans_le hsmall
  refine ofDecimal_of_exact (by decide) (Nat.ne_of_gt (Nat.mul_pos hunits hfive)) ?_ ?_ ?_
  · rw [Nat.mul_assoc, hten]
    rfl
  · refine (decimalLength_le_iff (by decide)).mpr ((?_ : _ < _).trans hlarge)
    exact Nat.mul_lt_mul_of_pos_right (unitsOfRank_lt h) hfive
  · -- fewer digits would make less than one unit
    refine Nat.le_of_lt_succ (Nat.lt_of_not_le fun hle => ?_)
    have hlt := (decimalLength_le_iff (n := unitsOfRank rank * five) (k := 743) (by decide)).mp
      (by omega)
    exact absurd (hsmall.trans (Nat.le_mul_of_pos_left five hunits)) (Nat.not_le_of_lt hlt)

theorem readsBack_of_gridNeighbour? {rank : Nat} {exponent : Int} {found : Nat × Int}
    (h : gridNeighbour? rank exponent = some found) :
    ofDecimal false found.1 found.2 = ofRank false rank := by
  unfold gridNeighbour? at h
  revert h
  generalize onGrid (unitsOfRank rank) exponent = grid
  obtain ⟨num, den⟩ := grid
  dsimp only
  -- of four answers three keep a neighbour, and each of these has been read back
  rcases hbelow : readsBack rank (num / den) exponent with _ | _ <;>
    rcases habove : readsBack rank (num / den + 1) exponent with _ | _
  · exact nofun
  · rintro ⟨⟩
    exact beq_iff_eq.mp habove
  · rintro ⟨⟩
    exact beq_iff_eq.mp hbelow
  · intro h
    dsimp only at h
    split at h
    · cases h
      exact beq_iff_eq.mp hbelow
    · cases h
      exact beq_iff_eq.mp habove

theorem findSome?_getD {α β : Type} (f : α → Option β) (as : List α) (b : β) :
    (as.findSome? f).getD b = b ∨ ∃ a, f a = some ((as.findSome? f).getD b) := by
  cases h : as.findSome? f with
  | none => exact .inl rfl
  | some found =>
      obtain ⟨a, -, ha⟩ := List.exists_of_findSome?_eq_some h
      exact .inr ⟨a, ha⟩

theorem shortest_cases (rank : Nat) :
    shortest rank = exactDecimal rank ∨ ∃ exponent, gridNeighbour? rank exponent = some (shortest rank) :=
  (findSome?_getD _ _ _).imp_right fun ⟨_, h⟩ => ⟨_, h⟩

/-- The decimal that is chosen for a number reads back as the number. -/
theorem ofDecimal_shortest {rank : Nat} (hpos : 0 < rank) (h : rank < rankBound) :
    ofDecimal false (shortest rank).1 (shortest rank).2 = ofRank false rank := by
  rcases shortest_cases rank with hexact | ⟨exponent, hgrid⟩
  · rw [hexact]
    exact ofDecimal_exactDecimal hpos h
  · exact readsBack_of_gridNeighbour? hgrid

end PropSchema.Binary64

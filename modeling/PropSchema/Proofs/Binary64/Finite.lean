import Mathlib.Order.Monotone.Basic
import PropSchema.Proofs.Binary64.Rounding
/-!
Finite numbers. A magnitude that is nearer to the largest finite one than to what would come after it
is rounded to a finite number, so counting up by one never leads to an infinity.
-/
namespace PropSchema.Binary64

def isFinite : Binary64 → Bool
  | .finite _ _ => true
  | _ => false

theorem isFinite_ofRank {rank : Nat} (h : rank < rankBound) (negative : Bool) :
    (ofRank negative rank).isFinite = true := by
  unfold ofRank
  rw [dif_pos (show rank < 0x7FF0000000000000 from h)]
  rfl

theorem unitsOfRank_mono {rank rank' : Nat} (h : rank ≤ rank') :
    unitsOfRank rank ≤ unitsOfRank rank' :=
  (strictMono_nat_of_lt_succ unitsOfRank_lt_succ).monotone h

theorem log2_lt_of_lt {units : Nat} (bits : Nat) (hbits : 0 < bits) (h : units < Nat.pow 2 bits) :
    units.log2 < bits := by
  by_cases h0 : units = 0
  · rw [h0, Nat.log2_zero]
    exact hbits
  · exact (Nat.log2_lt h0).mpr h

/-- A magnitude below 2^1024 is not below that of an infinite rank. -/
theorem floorRank_lt {units : Nat} (h : units < Nat.pow 2 2098) : floorRank units < rankBound := by
  have hrun : units >>> (units.log2 - 52) < 2 ^ 53 := by
    rw [Nat.shiftRight_eq_div_pow, Nat.div_lt_iff_lt_mul (Nat.two_pow_pos _), ← Nat.pow_add]
    exact Nat.lt_of_lt_of_le Nat.lt_log2_self (Nat.pow_le_pow_right (by decide) (by omega))
  have hlog : units.log2 < 2098 := log2_lt_of_lt 2098 (by decide) h
  have hshift : (units.log2 - 52) * 2 ^ 52 ≤ 2045 * 2 ^ 52 := Nat.mul_le_mul_right _ (by omega)
  have hsum : floorRank units =
      (units.log2 - 52) * 2 ^ 52 + units >>> (units.log2 - 52) := rfl
  rw [hsum, rankBound]
  omega

/-- The magnitude of the first infinite rank. -/
theorem unitsOfRank_rankBound : unitsOfRank rankBound = Nat.pow 2 2098 := by decide +kernel

theorem one_eq : one = .finite false ⟨0x3FF0000000000000, by decide⟩ := by decide +kernel

/-- One is less than half of the gap above the largest finite magnitude. -/
theorem one_lt_half_gap : 2 * (unitsOfRank (rankBound - 1) + unitsOfRank 0x3FF0000000000000) <
    unitsOfRank (rankBound - 1) + unitsOfRank rankBound := by decide +kernel

/-- What is nearer to the largest finite magnitude than to the next one is not rounded up. -/
theorem nearestRank_lt {units : Nat}
    (h : 2 * units < unitsOfRank (rankBound - 1) + unitsOfRank rankBound) :
    nearestRank units 1 < rankBound := by
  have hlast : unitsOfRank (rankBound - 1) < Nat.pow 2 2098 := unitsOfRank_lt (by decide)
  have hlow : floorRank units < rankBound := by
    refine floorRank_lt ?_
    rw [unitsOfRank_rankBound] at h
    generalize Nat.pow 2 2098 = bound at h hlast
    omega
  have hunits : nearestRank units 1 =
      if 2 * units < unitsOfRank (floorRank units) + unitsOfRank (floorRank units + 1)
      then floorRank units
      else if unitsOfRank (floorRank units) + unitsOfRank (floorRank units + 1) < 2 * units
        then floorRank units + 1 else floorRank units + floorRank units % 2 := by
    rw [nearestRank, Nat.div_one, Nat.one_mul]
  rw [hunits]
  have hsucc : rankBound - 1 + 1 = rankBound := Nat.sub_add_cancel (by decide)
  obtain heq | hlt := Nat.eq_or_lt_of_le (Nat.le_sub_one_of_lt hlow)
  · rw [heq, hsucc, if_pos h]
    exact Nat.sub_lt (by decide) Nat.one_pos
  · split
    · exact hlow
    · split <;> omega

theorem natAbs_signedUnits (negative : Bool) (rank : Nat) :
    (signedUnits negative rank).natAbs = unitsOfRank rank := by
  cases negative with
  | false => rw [signedUnits, if_neg Bool.false_ne_true, Int.natAbs_natCast]
  | true => rw [signedUnits, if_pos rfl, Int.natAbs_neg, Int.natAbs_natCast]

/-- A number that is counted up by one stays finite. -/
theorem isFinite_add_one {x : Binary64} (h : x.isFinite = true) : (x.add one).isFinite = true := by
  cases x with
  | finite negative rank =>
      have hsum : (signedUnits negative rank.val + signedUnits false 0x3FF0000000000000).natAbs ≤
          unitsOfRank (rankBound - 1) + unitsOfRank 0x3FF0000000000000 := by
        refine (Int.natAbs_add_le _ _).trans ?_
        rw [natAbs_signedUnits, natAbs_signedUnits]
        exact Nat.add_le_add_right (unitsOfRank_mono (Nat.le_sub_one_of_lt rank.isLt)) _
      rw [one_eq, add]
      split
      · exact isFinite_ofRank (by decide) _
      · refine isFinite_ofRank (nearestRank_lt ?_) _
        exact (Nat.mul_le_mul_left 2 hsum).trans_lt one_lt_half_gap
  | infinite negative => cases h
  | nan => cases h

end PropSchema.Binary64

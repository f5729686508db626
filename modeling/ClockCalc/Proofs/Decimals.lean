import ClockCalc.Binary64.Decimal
import ClockCalc.Proofs.Numerals
import ClockCalc.Proofs.Ranks

/-! Decimals and the doubles nearest to them. The nearest double depends on the value of a decimal
alone, not on how it is written, and for a whole decimal it is whole. The shortest decimal of a
double leads back to it; so the shortest decimal of a double with a fraction is not whole. -/

namespace ClockCalc

namespace Binary64

theorem nearestRank_zero (d : Nat) : nearestRank 0 d = 0 := by
  simp [nearestRank, roundQuotient]

theorem nearestRank_mul_mul (n d : Nat) {m : Nat} (hm : 0 < m) :
    nearestRank (n * m) (d * m) = nearestRank n d := by
  have hshift (s : Nat) : (d * m) <<< s = d <<< s * m := by
    rw [Nat.shiftLeft_eq, Nat.shiftLeft_eq, Nat.mul_right_comm]
  simp only [nearestRank, Nat.mul_div_mul_right n d hm, hshift, roundQuotient_mul_mul _ _ hm]

/-- Equal quotients are rounded alike. -/
theorem nearestRank_congr {n d n' d' : Nat} (hd : 0 < d) (hd' : 0 < d') (h : n * d' = n' * d) :
    nearestRank n d = nearestRank n' d' :=
  calc nearestRank n d = nearestRank (n * d') (d * d') := (nearestRank_mul_mul n d hd').symm
    _ = nearestRank (n' * d) (d' * d) := by rw [h, Nat.mul_comm d]
    _ = nearestRank n' d' := nearestRank_mul_mul n' d' hd

/-- Less than half a unit is nothing. -/
theorem nearestRank_of_lt {n d : Nat} (h : 2 * n < d) : nearestRank n d = 0 := by
  have hlt : n < d := by omega
  simp [nearestRank, roundQuotient, Nat.div_eq_of_lt hlt, Nat.mod_eq_of_lt hlt, h]

theorem pow_dvd_shift {s k : Nat} (h : s ≤ k) : 2 ^ s ∣ 1 <<< k := by
  rw [Nat.one_shiftLeft]
  exact Nat.pow_dvd_pow 2 h

theorem shift_dvd_pow {s k : Nat} (h : k ≤ s) : 1 <<< k ∣ 2 ^ s := by
  rw [Nat.one_shiftLeft]
  exact Nat.pow_dvd_pow 2 h

theorem pow_le_mul_shift {a j : Nat} (h : 2 ^ j ≤ a) (k : Nat) : 2 ^ (j + k) ≤ a * (1 <<< k) := by
  rw [Nat.one_shiftLeft, Nat.pow_add]
  exact Nat.mul_le_mul_right _ h

theorem mul_shift_lt {a j : Nat} (h : a < 2 ^ j) (k : Nat) : a * (1 <<< k) < 2 ^ (j + k) := by
  rw [Nat.one_shiftLeft, Nat.pow_add]
  exact Nat.mul_lt_mul_of_pos_right h (Nat.two_pow_pos k)

/-- Whole numbers are rounded to whole numbers: the steps between doubles are powers of two, so each
step is a part of one or a multiple of it. -/
theorem one_dvd_unitsOfRank_nearestRank {n : Nat} (h : one ∣ n) :
    one ∣ unitsOfRank (nearestRank n 1) := by
  rcases Nat.le_total (n.log2 - 52) 1074 with hfine | hcoarse
  · rwa [unitsOfRank_nearestRank_of_dvd (Nat.dvd_trans (pow_dvd_shift hfine) h)]
  · rw [unitsOfRank_nearestRank]
    exact Nat.dvd_mul_left_of_dvd (shift_dvd_pow hcoarse) _

end Binary64

namespace Decimal

open Numeral (tenTo tenTo_add tenTo_pos)

/-- The rank of the double nearest to a decimal. -/
def rank (d : Decimal) : Nat :=
  Binary64.nearestRank (d.coefficient * tenTo d.exponent.toNat * Binary64.one)
    (tenTo (-d.exponent).toNat)

/-- Zeros at the end of the coefficient may go into the exponent. -/
theorem rank_shift (c n : Nat) (e : Int) : rank ⟨c * tenTo n, e - n⟩ = rank ⟨c, e⟩ := by
  have htens : tenTo n * (tenTo (e - n).toNat * tenTo (-e).toNat) =
      tenTo e.toNat * tenTo (-(e - n)).toNat := by
    rw [← tenTo_add, ← tenTo_add, ← tenTo_add]
    congr 1
    omega
  refine Binary64.nearestRank_congr (tenTo_pos _) (tenTo_pos _) ?_
  calc c * tenTo n * tenTo (e - n).toNat * Binary64.one * tenTo (-e).toNat
      = c * Binary64.one * (tenTo n * (tenTo (e - n).toNat * tenTo (-e).toNat)) := by ac_rfl
    _ = c * Binary64.one * (tenTo e.toNat * tenTo (-(e - n)).toNat) := by rw [htens]
    _ = c * tenTo e.toNat * Binary64.one * tenTo (-(e - n)).toNat := by ac_rfl

end Decimal

namespace Binary64

open Numeral (tenTo)

theorem pow_le_tenTo (k : Nat) : 2 ^ (3 * k) ≤ tenTo k := by
  rw [Nat.pow_mul]
  exact Nat.pow_le_pow_left (by decide) k

theorem infiniteRank_le_nearestRank {n j : Nat} (h : 2 ^ j ≤ n) (hj : 2098 ≤ j) :
    infiniteRank ≤ nearestRank n 1 := by
  obtain ⟨k, rfl⟩ := Nat.exists_eq_add_of_le (Nat.le_trans (by decide : 52 ≤ 2098) hj)
  have hgroup : 2047 * ranksPerPower ≤ (k + 1) * ranksPerPower :=
    Nat.mul_le_mul_right _ (by omega)
  exact Nat.le_trans hgroup (le_nearestRank (by rwa [Nat.div_one]))

theorem infiniteRank_le_rank {c : Nat} {e : Int} (hc : c ≠ 0) (he : 400 < e) :
    infiniteRank ≤ Decimal.rank ⟨c, e⟩ := by
  have hden : (-e).toNat = 0 := by omega
  -- three bits for each zero are already more bits than any finite double has
  have hnum : 2 ^ (3 * e.toNat) ≤ c * tenTo e.toNat :=
    Nat.le_trans (pow_le_tenTo _) (Nat.le_mul_of_pos_left _ (Nat.pos_of_ne_zero hc))
  rw [Decimal.rank, hden]
  exact infiniteRank_le_nearestRank (pow_le_mul_shift hnum 1074) (by omega)

theorem rank_eq_zero {c : Nat} {e : Int} (he : e < 0) (hbits : c.log2 + 1101 < 3 * e.natAbs) :
    Decimal.rank ⟨c, e⟩ = 0 := by
  have hnum : e.toNat = 0 := by omega
  have hden : (-e).toNat = e.natAbs := by omega
  have hdouble : 2 * c < 2 ^ (c.log2 + 2) := by
    have : c < 2 ^ (c.log2 + 1) := Nat.lt_log2_self
    rw [Nat.pow_succ]
    omega
  have hpow : 2 ^ (c.log2 + 2 + 1074) ≤ 2 ^ (3 * e.natAbs) :=
    Nat.pow_le_pow_right (by decide) (by omega)
  rw [Decimal.rank, hnum, hden, show tenTo 0 = 1 from rfl, Nat.mul_one]
  refine nearestRank_of_lt ?_
  calc 2 * (c * one) = 2 * c * one := (Nat.mul_assoc 2 c one).symm
    _ < 2 ^ (c.log2 + 2 + 1074) := mul_shift_lt hdouble 1074
    _ ≤ 2 ^ (3 * e.natAbs) := hpow
    _ ≤ tenTo e.natAbs := pow_le_tenTo _

/-- The early answers of `ofDecimal` are those that the division would give. -/
theorem ofDecimal_eq (negative : Bool) (d : Decimal) :
    ofDecimal negative d = ofRank negative d.rank := by
  obtain ⟨c, e⟩ := d
  simp only [ofDecimal]
  split
  · rename_i hc
    rw [hc, Decimal.rank, Nat.zero_mul, Nat.zero_mul, nearestRank_zero]
    rfl
  · split
    · rename_i hc he
      rw [ofRank, dif_neg (Nat.not_lt.2 (infiniteRank_le_rank hc he))]
    · split
      · rename_i he
        have hden : (-e).toNat = 0 := by omega
        rw [Decimal.rank, hden]
        rfl
      · rename_i he
        have hnum : e.toNat = 0 := by omega
        have hden : (-e).toNat = e.natAbs := by omega
        split
        · rename_i hbits
          rw [rank_eq_zero (by omega) hbits]
          rfl
        · rw [Decimal.rank, hnum, hden, show tenTo 0 = 1 from rfl, Nat.mul_one]
          rfl

theorem rank_of_onGrid? {rank u n : Nat} {k : Int} {d : Decimal}
    (h : onGrid? rank u k n = some d) : d.rank = rank := by
  obtain ⟨c, hc, rfl⟩ := Option.map_eq_some_iff.1 h
  have hrank : Decimal.rank ⟨c, k - n⟩ = rank := by
    have hhit := List.find?_some hc
    rw [Decimal.rank]
    exact eq_of_beq hhit
  split
  · rename_i htens
    rw [htens] at hrank
    rw [← hrank, ← Decimal.rank_shift 1 n k, Nat.one_mul]
  · exact hrank

/-- A whole double as a decimal, with any number of zeros behind the point. -/
theorem rank_of_units {rank n : Nat} (h : unitsOfRank rank = n * one) (places : Nat) :
    Decimal.rank ⟨n * tenTo places, -(places : Int)⟩ = rank := by
  have hvalue : n * tenTo 0 * one = unitsOfRank rank := by
    rw [h, show tenTo 0 = 1 from rfl, Nat.mul_one]
  rw [← Int.zero_sub, Decimal.rank_shift, Decimal.rank]
  exact hvalue ▸ nearestRank_unitsOfRank rank

/-- The exact value of a double as a decimal: a unit is `5 ^ k` over `10 ^ k`. -/
theorem rank_exact (rank k : Nat) (hk : one = 1 <<< k) :
    Decimal.rank ⟨unitsOfRank rank * Nat.pow 5 k, -(k : Int)⟩ = rank := by
  have hnum : (-(k : Int)).toNat = 0 := by omega
  have hden : (-(-(k : Int))).toNat = k := by omega
  have htens : Nat.pow 5 k * one = tenTo k := by
    rw [hk, Nat.one_shiftLeft]
    exact (Nat.mul_pow 5 2 k).symm
  have hvalue : unitsOfRank rank * Nat.pow 5 k * tenTo 0 * one = unitsOfRank rank * tenTo k := by
    rw [show tenTo 0 = 1 from rfl, Nat.mul_one, Nat.mul_assoc, htens]
  rw [Decimal.rank, hnum, hden, hvalue]
  calc nearestRank (unitsOfRank rank * tenTo k) (tenTo k)
      = nearestRank (unitsOfRank rank * tenTo k) (1 * tenTo k) := by rw [Nat.one_mul]
    _ = nearestRank (unitsOfRank rank) 1 := nearestRank_mul_mul _ 1 (Numeral.tenTo_pos k)
    _ = rank := nearestRank_unitsOfRank rank

/-- Whether it is found on a grid or is the exact value, the shortest decimal leads back. -/
theorem rank_shortest (rank : Nat) : (shortest rank).rank = rank := by
  simp only [shortest]
  cases hfound : (List.range 17).findSome? fun i =>
      onGrid? rank (unitsOfRank rank) (magnitude (unitsOfRank rank)) (i + 1) with
  | some d =>
    obtain ⟨i, -, hi⟩ := List.exists_of_findSome?_eq_some hfound
    exact rank_of_onGrid? hi
  | none => exact rank_exact rank 1074 rfl

theorem ofDecimal_shortest (negative : Bool) (rank : Fin infiniteRank) :
    ofDecimal negative (shortest rank) = .finite negative rank := by
  rw [ofDecimal_eq, rank_shortest, ofRank, dif_pos rank.isLt]

/-- A decimal without digits behind the point would lead to a whole double. -/
theorem exponent_shortest_neg {rank : Nat} (h : ¬ one ∣ unitsOfRank rank) :
    (shortest rank).exponent < 0 := by
  refine Int.not_le.1 fun hwhole => h ?_
  have hden : (-(shortest rank).exponent).toNat = 0 := by omega
  have hrank := rank_shortest rank
  rw [Decimal.rank, hden] at hrank
  rw [← hrank]
  exact one_dvd_unitsOfRank_nearestRank (Nat.dvd_mul_left one _)

end Binary64

end ClockCalc

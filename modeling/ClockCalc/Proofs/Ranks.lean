import ClockCalc.Number
import Mathlib.Algebra.Group.Nat.Defs

/-! Rounding keeps what is a double already. The units of a rank are rounded back to this rank, so
a sum with zero loses nothing, and a word, whose value is far below the greatest double, is never
rounded to infinity. -/

namespace ClockCalc

theorem roundQuotient_mul_right (n : Nat) {d : Nat} (hd : 0 < d) : roundQuotient (n * d) d = n := by
  simp [roundQuotient, Nat.mul_div_cancel _ hd, hd]

theorem roundQuotient_le (n d : Nat) : roundQuotient n d ≤ n / d + 1 := by
  simp only [roundQuotient]
  split
  · omega
  · split <;> omega

theorem le_roundQuotient (n d : Nat) : n / d ≤ roundQuotient n d := by
  simp only [roundQuotient]
  split
  · exact Nat.le_refl _
  · split <;> omega

theorem roundQuotient_mul_mul (n d : Nat) {m : Nat} (hm : 0 < m) :
    roundQuotient (n * m) (d * m) = roundQuotient n d := by
  have hquotient : n * m / (d * m) = n / d := Nat.mul_div_mul_right n d hm
  have hremainder : n * m % (d * m) = n % d * m := Nat.mul_mod_mul_right m n d
  have hdouble : 2 * (n % d * m) = 2 * (n % d) * m := (Nat.mul_assoc _ _ _).symm
  simp only [roundQuotient, hquotient, hremainder, hdouble, Nat.mul_lt_mul_right hm]

/-- From half a step below an even number on a quotient is rounded to it or past it. The case that
decides is that of the quotient whose whole part is one less, for it is odd. -/
theorem le_roundQuotient_iff {n d m : Nat} (hd : 0 < d) (hm : m % 2 = 0) :
    m ≤ roundQuotient n d ↔ (2 * m - 1) * d ≤ 2 * n := by
  have hn : d * (n / d) + n % d = n := Nat.div_add_mod n d
  have hrest : n % d < d := Nat.mod_lt n hd
  rcases Nat.lt_trichotomy m (n / d + 1) with hbelow | heq | habove
  · have hmul : (2 * m - 1) * d ≤ 2 * (n / d) * d := Nat.mul_le_mul_right d (by omega)
    have hwhole : 2 * (n / d) * d = 2 * (d * (n / d)) := by rw [Nat.mul_assoc, Nat.mul_comm d]
    exact iff_of_true (Nat.le_trans (by omega) (le_roundQuotient n d)) (by omega)
  · have hodd : n / d % 2 = 1 := by omega
    have hhalf : (2 * m - 1) * d = 2 * (d * (n / d)) + d := by
      have hcount : 2 * m - 1 = 2 * (n / d) + 1 := by omega
      rw [hcount, Nat.add_mul, Nat.one_mul, Nat.mul_assoc, Nat.mul_comm d]
    simp only [roundQuotient, hodd]
    split
    · omega
    · split <;> omega
  · have hmul : (2 * (n / d) + 2) * d ≤ (2 * m - 1) * d := Nat.mul_le_mul_right d (by omega)
    have hwhole : (2 * (n / d) + 2) * d = 2 * (d * (n / d)) + 2 * d := by
      rw [Nat.add_mul, Nat.mul_assoc, Nat.mul_comm d]
    have hround := roundQuotient_le n d
    exact iff_of_false (by omega) (by omega)

namespace Binary64

theorem unitsOfRank_of_lt {rank : Nat} (h : rank < ranksPerPower) : unitsOfRank rank = rank :=
  if_pos h

/-- From the first power of two on, the place in its group gives the significand of a rank. -/
theorem unitsOfRank_group (group : Nat) {place : Nat} (h : place < ranksPerPower) :
    unitsOfRank ((group + 1) * ranksPerPower + place) = (ranksPerPower + place) * 2 ^ group := by
  have hnot : ¬ (group + 1) * ranksPerPower + place < ranksPerPower := by
    rw [Nat.add_mul, Nat.one_mul]
    omega
  have hdiv : ((group + 1) * ranksPerPower + place) / ranksPerPower = group + 1 := by
    rw [Nat.mul_comm, Nat.mul_add_div (by decide), Nat.div_eq_of_lt h, Nat.add_zero]
  have hmod : ((group + 1) * ranksPerPower + place) % ranksPerPower = place := by
    rw [Nat.mul_comm, Nat.mul_add_mod, Nat.mod_eq_of_lt h]
  rw [unitsOfRank, if_neg hnot, hdiv, hmod, Nat.shiftLeft_eq, Nat.add_sub_cancel]

/-- A rank of the first group, or one with its group and its place. -/
theorem rank_cases (rank : Nat) :
    rank < ranksPerPower ∨
      ∃ group place, place < ranksPerPower ∧ rank = (group + 1) * ranksPerPower + place := by
  by_cases h : rank < ranksPerPower
  · exact .inl h
  · have hpos := Nat.div_pos (Nat.not_lt.1 h) (by decide)
    refine .inr ⟨rank / ranksPerPower - 1, rank % ranksPerPower, Nat.mod_lt _ (by decide), ?_⟩
    rw [Nat.sub_add_cancel hpos, Nat.mul_comm, Nat.div_add_mod]

theorem unitsOfRank_eq_zero_iff {rank : Nat} : unitsOfRank rank = 0 ↔ rank = 0 := by
  rcases rank_cases rank with h | ⟨group, place, hplace, rfl⟩
  · rw [unitsOfRank_of_lt h]
  · have hpos := Nat.two_pow_pos group
    rw [unitsOfRank_group group hplace, Nat.mul_eq_zero, Nat.add_mul]
    unfold ranksPerPower
    omega

theorem log2_significand (group : Nat) {place : Nat} (h : place < ranksPerPower) :
    ((ranksPerPower + place) * 2 ^ group).log2 = 52 + group := by
  have hpos := Nat.two_pow_pos group
  have hlower : 2 ^ 52 ≤ ranksPerPower + place := Nat.le_add_right _ _
  have hupper : ranksPerPower + place < 2 ^ (52 + 1) := Nat.add_lt_add_left h _
  rw [Nat.log2_eq_iff (Nat.mul_ne_zero (by omega) (by omega)), Nat.add_right_comm, Nat.pow_add,
    Nat.pow_add]
  exact ⟨Nat.mul_le_mul_right _ hlower, Nat.mul_lt_mul_of_pos_right hupper hpos⟩

/-- Numbers of fewer bits than a significand are all in the first group. -/
theorem group_of_lt {n : Nat} (h : n < ranksPerPower) : n.log2 - 52 = 0 := by
  by_cases hzero : n = 0
  · rw [hzero]
    rfl
  · have := (Nat.log2_lt (k := 52) hzero).2 h
    omega

/-- The units of a rank are a multiple of the steps around it. -/
theorem step_dvd_unitsOfRank (rank : Nat) :
    2 ^ ((unitsOfRank rank).log2 - 52) ∣ unitsOfRank rank := by
  rcases rank_cases rank with h | ⟨group, place, hplace, rfl⟩
  · rw [unitsOfRank_of_lt h, group_of_lt h]
    exact Nat.one_dvd rank
  · rw [unitsOfRank_group group hplace, log2_significand group hplace, Nat.add_sub_cancel_left]
    exact Nat.dvd_mul_left _ _

theorem nearestRank_unitsOfRank (rank : Nat) : nearestRank (unitsOfRank rank) 1 = rank := by
  rcases rank_cases rank with h | ⟨group, place, hplace, rfl⟩
  · have hlog := group_of_lt h
    have hround := roundQuotient_mul_right rank Nat.one_pos
    rw [Nat.mul_one] at hround
    rw [unitsOfRank_of_lt h, nearestRank, Nat.div_one, hlog, Nat.shiftLeft_zero, hround,
      Nat.zero_mul, Nat.zero_add]
  · rw [unitsOfRank_group group hplace, nearestRank, Nat.div_one, log2_significand group hplace,
      Nat.add_sub_cancel_left, Nat.shiftLeft_eq, Nat.one_mul,
      roundQuotient_mul_right _ (Nat.two_pow_pos group), Nat.add_mul, Nat.one_mul, Nat.add_assoc]

theorem ofUnits_unitsOfRank (negative : Bool) (rank : Fin infiniteRank) :
    ofUnits negative (unitsOfRank rank) 1 = .finite negative rank := by
  rw [ofUnits, nearestRank_unitsOfRank, ofRank, dif_pos rank.isLt]

/-- The exact value of a finite double in units. -/
def signedUnits (negative : Bool) (rank : Nat) : Int :=
  if negative then -(unitsOfRank rank : Int) else unitsOfRank rank

theorem natAbs_signedUnits (negative : Bool) (rank : Nat) :
    (signedUnits negative rank).natAbs = unitsOfRank rank := by
  cases negative <;> simp [signedUnits]

theorem signedUnits_eq_zero_iff {negative : Bool} {rank : Nat} :
    signedUnits negative rank = 0 ↔ rank = 0 := by
  rw [← Int.natAbs_eq_zero, natAbs_signedUnits, unitsOfRank_eq_zero_iff]

theorem signedUnits_neg_iff {negative : Bool} {rank : Nat} :
    signedUnits negative rank < 0 ↔ rank ≠ 0 ∧ negative = true := by
  have hzero : unitsOfRank rank = 0 ↔ rank = 0 := unitsOfRank_eq_zero_iff
  cases negative
  · simp [signedUnits]
  · simp [signedUnits, Nat.pos_iff_ne_zero, hzero]

theorem finite_add (s t : Bool) (a b : Fin infiniteRank) :
    Binary64.finite s a + .finite t b =
      let sum := signedUnits s a + signedUnits t b
      ofUnits (if sum = 0 then s && t else sum < 0) sum.natAbs 1 := by
  rw [show Binary64.finite s a + .finite t b = add (.finite s a) (.finite t b) from rfl]
  simp only [add, signedUnits]
  congr 1

theorem finite_add_comm (s t : Bool) (a b : Fin infiniteRank) :
    Binary64.finite s a + .finite t b = .finite t b + .finite s a := by
  simp only [finite_add, Int.add_comm, Bool.and_comm]

/-- The sum with a zero is the other term; of two zeros it is negative if both are. -/
theorem finite_add_zero (negative sign : Bool) (rank : Fin infiniteRank) :
    Binary64.finite negative rank + zero sign =
      .finite (if rank.val = 0 then negative && sign else negative) rank := by
  have hzero : signedUnits sign 0 = 0 := signedUnits_eq_zero_iff.2 rfl
  simp only [zero, finite_add, hzero, Int.add_zero, natAbs_signedUnits, ofUnits_unitsOfRank,
    signedUnits_eq_zero_iff, signedUnits_neg_iff]
  by_cases h : rank.val = 0
  · simp [h]
  · simp [h]

/-- A quotient has a group, by the bits of its whole part, and is rounded to a significand of this
group. -/
theorem nearestRank_eq (n d : Nat) :
    nearestRank n d = ((n / d).log2 - 52) * ranksPerPower +
      roundQuotient n (d * 2 ^ ((n / d).log2 - 52)) := by
  rw [nearestRank, Nat.shiftLeft_eq]

theorem significand_le (n d : Nat) :
    roundQuotient n (d * 2 ^ ((n / d).log2 - 52)) ≤ 2 * ranksPerPower := by
  have hlt : n / d < 2 ^ ((n / d).log2 - 52) * (2 * ranksPerPower) := by
    have hbits : 2 ^ ((n / d).log2 + 1) ≤ 2 ^ ((n / d).log2 - 52 + 53) :=
      Nat.pow_le_pow_right (by decide) (by omega)
    rw [Nat.pow_add 2 _ 53, show 2 ^ 53 = 2 * ranksPerPower by decide] at hbits
    exact Nat.lt_of_lt_of_le Nat.lt_log2_self hbits
  have hquotient := Nat.div_lt_of_lt_mul hlt
  rw [Nat.div_div_eq_div_mul] at hquotient
  exact Nat.le_trans (roundQuotient_le _ _) hquotient

theorem le_significand {n d : Nat} (h : 2 ^ 52 ≤ n / d) :
    ranksPerPower ≤ roundQuotient n (d * 2 ^ ((n / d).log2 - 52)) := by
  have hbits : 52 ≤ (n / d).log2 := (Nat.le_log2 (by omega)).2 h
  have hpow : 2 ^ 52 * 2 ^ ((n / d).log2 - 52) ≤ n / d := by
    rw [← Nat.pow_add, Nat.add_sub_cancel' hbits]
    exact Nat.log2_self_le (by omega)
  have hquotient := (Nat.le_div_iff_mul_le (Nat.two_pow_pos _)).2 hpow
  rw [Nat.div_div_eq_div_mul] at hquotient
  exact Nat.le_trans hquotient (le_roundQuotient _ _)

theorem nearestRank_le {n d k : Nat} (h : (n / d).log2 ≤ 52 + k) :
    nearestRank n d ≤ (k + 2) * ranksPerPower := by
  have hgroup : ((n / d).log2 - 52) * ranksPerPower ≤ k * ranksPerPower :=
    Nat.mul_le_mul_right _ (by omega)
  rw [nearestRank_eq, Nat.add_mul]
  exact Nat.add_le_add hgroup (significand_le n d)

theorem le_nearestRank {n d k : Nat} (h : 2 ^ (52 + k) ≤ n / d) :
    (k + 1) * ranksPerPower ≤ nearestRank n d := by
  have hpow : 2 ^ 52 ≤ 2 ^ (52 + k) := Nat.pow_le_pow_right (by decide) (Nat.le_add_right _ _)
  have hbits : 52 + k ≤ (n / d).log2 := (Nat.le_log2 (by omega)).2 h
  have hgroup : k * ranksPerPower ≤ ((n / d).log2 - 52) * ranksPerPower :=
    Nat.mul_le_mul_right _ (by omega)
  rw [nearestRank_eq, Nat.add_mul, Nat.one_mul]
  exact Nat.add_le_add hgroup (le_significand (Nat.le_trans hpow h))

/-- From half a step below a power of two on a quotient is rounded to it or past it. Quotients that
are rounded in the group before this power decide it by their significand; in all other groups they
are farther away than that. -/
theorem le_nearestRank_iff {n d : Nat} (hd : 0 < d) (k : Nat) :
    (k + 2) * ranksPerPower ≤ nearestRank n d ↔
      (4 * ranksPerPower - 1) * (d * 2 ^ k) ≤ 2 * n := by
  have hpos : 0 < d * 2 ^ k := Nat.mul_pos hd (Nat.two_pow_pos k)
  have hpower : 2 ^ (53 + k) * d = 2 * ranksPerPower * (d * 2 ^ k) := by
    rw [Nat.pow_add, Nat.mul_comm d, Nat.mul_assoc]
    rfl
  rcases Nat.lt_trichotomy ((n / d).log2 - 52) k with hbelow | heq | habove
  · -- the quotient is less than half of the power
    have hlt : n / d < 2 ^ (52 + k) :=
      Nat.lt_of_lt_of_le Nat.lt_log2_self (Nat.pow_le_pow_right (by decide) (by omega))
    have hn : n < 2 ^ (52 + k) * d := (Nat.div_lt_iff_lt_mul hd).1 hlt
    have hrank : nearestRank n d ≤ (k - 1 + 2) * ranksPerPower := nearestRank_le (by omega)
    have hless : (k - 1 + 2) * ranksPerPower < (k + 2) * ranksPerPower :=
      Nat.mul_lt_mul_of_pos_right (by omega) (by decide)
    have hhalf : 2 ^ (53 + k) * d = 2 * (2 ^ (52 + k) * d) := by
      rw [← Nat.mul_assoc, ← Nat.pow_succ']
      congr 2
      omega
    have hstep : 2 * ranksPerPower * (d * 2 ^ k) ≤ (4 * ranksPerPower - 1) * (d * 2 ^ k) :=
      Nat.mul_le_mul_right _ (by decide)
    exact iff_of_false (by omega) (by omega)
  · have hrank : nearestRank n d = k * ranksPerPower + roundQuotient n (d * 2 ^ k) := by
      rw [nearestRank_eq, heq]
    rw [hrank, Nat.add_mul, Nat.add_le_add_iff_left, le_roundQuotient_iff hpos (by decide),
      ← Nat.mul_assoc 2 2]
  · have hle : 2 ^ (52 + (k + 1)) ≤ n / d := by
      refine Nat.le_trans (Nat.pow_le_pow_right (by decide) ?_) (Nat.log2_self_le ?_)
      · omega
      · rintro hzero
        rw [hzero] at habove
        exact absurd habove (by simp)
    have hn : 2 ^ (52 + (k + 1)) * d ≤ n := (Nat.le_div_iff_mul_le hd).1 hle
    have hrank : (k + 1 + 1) * ranksPerPower ≤ nearestRank n d := le_nearestRank hle
    rw [show 52 + (k + 1) = 53 + k by omega, hpower] at hn
    have hstep : (4 * ranksPerPower - 1) * (d * 2 ^ k) ≤ 2 * (2 * ranksPerPower) * (d * 2 ^ k) :=
      Nat.mul_le_mul_right _ (by decide)
    rw [Nat.mul_assoc 2] at hstep
    exact iff_of_true hrank (by omega)

/-- Infinity begins half a step past the greatest finite double. -/
theorem infiniteRank_le_nearestRank_iff {n d : Nat} (hd : 0 < d) :
    infiniteRank ≤ nearestRank n d ↔ (4 * ranksPerPower - 1) * (d * 2 ^ 2045) ≤ 2 * n :=
  le_nearestRank_iff hd 2045

/-- What is less than a number that stays finite stays finite. -/
theorem nearestRank_lt_of_le {m n : Nat} (h : m ≤ n) (hn : nearestRank n 1 < infiniteRank) :
    nearestRank m 1 < infiniteRank := by
  refine Nat.not_le.1 fun hm => Nat.not_le.2 hn ?_
  rw [infiniteRank_le_nearestRank_iff Nat.one_pos] at hm ⊢
  exact Nat.le_trans hm (Nat.mul_le_mul_left 2 h)

/-- The units of a rank that is made up of a group and a significand. -/
theorem unitsOfRank_significand {s q : Nat} (hlower : s = 0 ∨ ranksPerPower ≤ q)
    (hupper : q ≤ 2 * ranksPerPower) : unitsOfRank (s * ranksPerPower + q) = q * 2 ^ s := by
  rcases Nat.lt_or_ge q ranksPerPower with hsmall | hlarge
  · obtain rfl : s = 0 := hlower.resolve_right (Nat.not_le.2 hsmall)
    rw [Nat.zero_mul, Nat.zero_add, unitsOfRank_of_lt hsmall, Nat.pow_zero, Nat.mul_one]
  · obtain ⟨place, rfl⟩ := Nat.exists_eq_add_of_le hlarge
    rcases Nat.lt_or_ge place ranksPerPower with hplace | hcarry
    · rw [← unitsOfRank_group s hplace, Nat.add_mul, Nat.one_mul, Nat.add_assoc]
    · -- the significand has been rounded up to the next power of two
      obtain rfl : place = ranksPerPower := by omega
      calc unitsOfRank (s * ranksPerPower + (ranksPerPower + ranksPerPower))
          = unitsOfRank ((s + 1 + 1) * ranksPerPower + 0) := by
            rw [Nat.add_zero, Nat.add_mul, Nat.add_mul, Nat.one_mul, Nat.add_assoc]
        _ = (ranksPerPower + 0) * 2 ^ (s + 1) := unitsOfRank_group (s + 1) (by decide)
        _ = (ranksPerPower + ranksPerPower) * 2 ^ s := by
            rw [Nat.add_zero, Nat.pow_succ, Nat.mul_comm (2 ^ s), ← Nat.mul_assoc, Nat.mul_two]

/-- What a number of units is rounded to. -/
theorem unitsOfRank_nearestRank (n : Nat) :
    unitsOfRank (nearestRank n 1) =
      roundQuotient n (2 ^ (n.log2 - 52)) * 2 ^ (n.log2 - 52) := by
  have hupper := significand_le n 1
  have hlower : n.log2 - 52 = 0 ∨ ranksPerPower ≤ roundQuotient n (2 ^ (n.log2 - 52)) := by
    rcases Nat.lt_or_ge n (2 ^ 52) with hsmall | hlarge
    · exact .inl (group_of_lt hsmall)
    · have hquotient : 2 ^ 52 ≤ n / 1 := by rwa [Nat.div_one]
      have hle := le_significand hquotient
      rw [Nat.div_one, Nat.one_mul] at hle
      exact .inr hle
  rw [Nat.div_one, Nat.one_mul] at hupper
  rw [nearestRank_eq, Nat.div_one, Nat.one_mul, unitsOfRank_significand hlower hupper]

/-- A number that its steps divide is a double. -/
theorem unitsOfRank_nearestRank_of_dvd {n : Nat} (h : 2 ^ (n.log2 - 52) ∣ n) :
    unitsOfRank (nearestRank n 1) = n := by
  rw [unitsOfRank_nearestRank]
  generalize n.log2 - 52 = s at h
  obtain ⟨q, rfl⟩ := h
  have hexact : roundQuotient (2 ^ s * q) (2 ^ s) = q := by
    rw [Nat.mul_comm, roundQuotient_mul_right q (Nat.two_pow_pos s)]
  rw [hexact, Nat.mul_comm]

theorem log2_shiftLeft_le {n k : Nat} (h : n < 2 ^ k) (s : Nat) :
    (n * (1 <<< s)).log2 ≤ k + s := by
  by_cases hzero : n * (1 <<< s) = 0
  · rw [hzero, Nat.log2_zero]
    exact Nat.zero_le _
  · rw [← Nat.lt_succ_iff, Nat.log2_lt hzero, Nat.shiftLeft_eq, Nat.one_mul, Nat.pow_succ,
      Nat.pow_add]
    have := Nat.mul_lt_mul_of_pos_right h (Nat.two_pow_pos s)
    omega

theorem isFinite_ofInt (a : Word) : (ofInt a.val).isFinite = true := by
  have habs : a.val.natAbs < 2 ^ 64 := by
    have := a.lower
    have := a.upper
    omega
  have hbits : (a.val.natAbs * one / 1).log2 ≤ 52 + 1086 := by
    rw [Nat.div_one]
    exact log2_shiftLeft_le habs 1074
  have hrank : nearestRank (a.val.natAbs * one) 1 < infiniteRank :=
    Nat.lt_of_le_of_lt (nearestRank_le hbits) (by decide)
  rw [ofInt, ofUnits, ofRank, dif_pos hrank]
  rfl

end Binary64

end ClockCalc

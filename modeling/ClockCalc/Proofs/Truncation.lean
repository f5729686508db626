import ClockCalc.Proofs.Amounts
import ClockCalc.Proofs.Decimals
import ClockCalc.Proofs.Except
import ClockCalc.Proofs.Hundredths
import Mathlib.Data.Rat.Floor

/-! Doubles that become seconds. A double without its fraction is a double again, and it is compared
with the limits of the words as a double. The upper limit is rounded up on the way, but only to the
first number that is out of range, so nothing is let through that a word cannot hold, and nothing is
kept out that it can. A time that is scaled or divided by a double is therefore the product or the
quotient without its fraction, or is refused. -/

namespace ClockCalc

namespace Word

theorem clamp_of_ofInt? {n : Int} {a : Word} (h : ofInt? n = some a) : clamp n = a := by
  rw [clamp, h, Option.getD_some]

end Word

/-- The integer that is left without the fraction, toward zero. -/
def truncation (q : ℚ) : Int := if 0 ≤ q then ⌊q⌋ else ⌈q⌉

theorem truncation_div (n : Int) {d : Nat} (hd : 0 < d) : truncation (n / d) = n.tdiv d := by
  have hpos : (0 : ℚ) < d := Nat.cast_pos.2 hd
  have hsign : (0 : ℚ) ≤ n / d ↔ 0 ≤ n := by
    rw [le_div_iff₀ hpos, zero_mul, Int.cast_nonneg_iff]
  unfold truncation
  split
  · rename_i hn
    rw [Rat.floor_intCast_div_natCast, Int.tdiv_eq_ediv_of_nonneg (hsign.1 hn)]
  · rename_i hn
    have hneg : 0 ≤ -n := by
      have := mt hsign.2 hn
      omega
    rw [Rat.ceil_intCast_div_natCast, ← Int.tdiv_eq_ediv_of_nonneg hneg, Int.neg_tdiv, neg_neg]

namespace Binary64

section

variable {a b x : Binary64} {m n k : Int}

theorem lt_iff_of_units (ha : a.units? = some m) (hb : b.units? = some n) : a < b ↔ m < n := by
  cases a with
  | nan s | infinite s => cases ha
  | finite s i =>
    cases b with
    | nan t | infinite t => cases hb
    | finite t j =>
      rw [← Option.some.inj ha, ← Option.some.inj hb, ← Int.compare_eq_lt]
      exact Option.some_inj

theorem le_iff_of_units (ha : a.units? = some m) (hb : b.units? = some n) : a ≤ b ↔ m ≤ n := by
  cases a with
  | nan s | infinite s => cases ha
  | finite s i =>
    cases b with
    | nan t | infinite t => cases hb
    | finite t j =>
      rw [← Option.some.inj ha, ← Option.some.inj hb, Int.le_iff_lt_or_eq, ← Int.compare_eq_lt,
        ← Int.compare_eq_eq]
      exact or_congr Option.some_inj Option.some_inj

theorem log2_le_log2 {m n : Nat} (h : m ≤ n) : m.log2 ≤ n.log2 := by
  by_cases hm : m = 0
  · rw [hm, Nat.log2_zero]
    exact Nat.zero_le _
  · exact (Nat.le_log2 (by omega)).2 (Nat.le_trans (Nat.log2_self_le hm) h)

/-- Where doubles lie closer than one, whole numbers are among them; where they lie farther apart,
they have no fraction. -/
theorem step_dvd_whole (rank : Nat) :
    2 ^ ((unitsOfRank rank / one * one).log2 - 52) ∣ unitsOfRank rank / one * one := by
  have hle : unitsOfRank rank / one * one ≤ unitsOfRank rank := Nat.div_mul_le_self _ _
  have hlog := log2_le_log2 hle
  rcases Nat.le_total ((unitsOfRank rank).log2 - 52) 1074 with hfine | hcoarse
  · have hstep : 2 ^ ((unitsOfRank rank / one * one).log2 - 52) ∣ one :=
      pow_dvd_shift (by omega)
    exact Nat.dvd_mul_left_of_dvd hstep _
  · have hone : one ∣ unitsOfRank rank :=
      Nat.dvd_trans (shift_dvd_pow hcoarse) (step_dvd_unitsOfRank rank)
    rw [Nat.div_mul_cancel hone]
    exact step_dvd_unitsOfRank rank

/-- A double without its fraction is never rounded. -/
theorem exists_trunc (negative : Bool) (rank : Fin infiniteRank) :
    ∃ r : Fin infiniteRank, trunc (.finite negative rank) = .finite negative r ∧
      unitsOfRank r = unitsOfRank rank / one * one := by
  have hle : unitsOfRank rank / one * one ≤ unitsOfRank rank := Nat.div_mul_le_self _ _
  have hfinite : nearestRank (unitsOfRank rank / one * one) 1 < infiniteRank := by
    refine nearestRank_lt_of_le hle ?_
    rw [nearestRank_unitsOfRank]
    exact rank.isLt
  refine ⟨⟨_, hfinite⟩, ?_, unitsOfRank_nearestRank_of_dvd (step_dvd_whole rank)⟩
  rw [trunc, ofUnits, ofRank, dif_pos hfinite]

theorem units?_trunc (h : x.truncate? = some k) : x.trunc.units? = some (k * one) := by
  cases x with
  | nan s | infinite s => cases h
  | finite negative rank =>
    obtain ⟨r, hr, hunits⟩ := exists_trunc negative rank
    have hk : (signedUnits negative rank).tdiv one = k := Option.some.inj h
    have hwhole : ((unitsOfRank rank : Int).tdiv one) * one = unitsOfRank r := by
      rw [hunits, Nat.cast_mul, Int.ofNat_tdiv]
    rw [hr, ← hk]
    cases negative with
    | false => exact congrArg some hwhole.symm
    | true =>
      refine congrArg some ?_
      rw [signedUnits, if_pos rfl, if_pos rfl, Int.neg_tdiv, Int.neg_mul, hwhole]

theorem truncate?_of_units (h : x.units? = some (k * one)) : x.truncate? = some k := by
  have hone : (one : Int) ≠ 0 := by decide
  rw [truncate?, h, Option.map_some, Int.mul_tdiv_cancel k hone]

theorem units?_least :
    (ofInt Word.least.val).units? = some (-0x8000000000000000 * (one : Int)) := by
  decide +kernel

/-- The upper limit is rounded up to `2 ^ 63`. -/
theorem units?_greatest :
    (ofInt Word.greatest.val).units? = some (0x8000000000000000 * (one : Int)) := by
  decide +kernel

theorem isFinite_iff_truncate? : x.isFinite = true ↔ ∃ k, x.truncate? = some k := by
  cases x with
  | nan s | infinite s => simp [isFinite, truncate?, units?]
  | finite s rank => simp [isFinite, truncate?, units?]

/-- The comparison with the limits as doubles is the one with the limits themselves. -/
theorem out_of_limits_iff (h : x.truncate? = some k) :
    x.trunc < ofInt Word.least.val ∨ ofInt Word.greatest.val ≤ x.trunc ↔ ¬ Word.Holds k := by
  have hwhole := units?_trunc h
  have hone : (0 : Int) < one := by decide
  rw [lt_iff_of_units hwhole units?_least, le_iff_of_units units?_greatest hwhole,
    Int.mul_lt_mul_right hone, Int.mul_le_mul_right hone, Word.Holds]
  omega

/-- What a word can hold is never saturated, and nothing else is let through. -/
theorem toWord?_eq (x : Binary64) : x.toWord? = x.truncate?.bind Word.ofInt? := by
  cases hk : x.truncate? with
  | none =>
    have hfinite : ¬ x.isFinite = true := by simp [isFinite_iff_truncate?, hk]
    exact if_pos (.inl hfinite)
  | some k =>
    have hfinite : x.isFinite = true := isFinite_iff_truncate?.2 ⟨k, hk⟩
    have hlimits := out_of_limits_iff hk
    by_cases hholds : Word.Holds k
    · obtain ⟨a, ha, -⟩ := Word.exists_of_holds hholds
      have hinside : ¬ (¬ x.isFinite = true ∨
          x.trunc < ofInt Word.least.val ∨ ofInt Word.greatest.val ≤ x.trunc) := by
        simp [hfinite, hlimits, hholds]
      have hsaturate : x.trunc.saturate = a := by
        rw [saturate, truncate?_of_units (units?_trunc hk)]
        exact Word.clamp_of_ofInt? ha
      rw [Option.bind_some, ha, ← hsaturate]
      exact if_neg hinside
    · rw [Option.bind_some, Word.ofInt?_of_not_holds hholds]
      exact if_pos (.inr (hlimits.2 hholds))

/-- The double is finite, and its exact value without the fraction is this integer. -/
def TruncatesTo (x : Binary64) (n : Int) : Prop := ∃ q, x.rational? = some q ∧ truncation q = n

theorem truncatesTo_iff : x.TruncatesTo n ↔ x.truncate? = some n := by
  unfold TruncatesTo rational? truncate?
  cases x.units? with
  | none => simp
  | some units =>
    have hone : 0 < one := by decide
    simp [truncation_div units hone]

theorem toWord?_eq_some_iff {a : Word} : x.toWord? = some a ↔ x.TruncatesTo a.val := by
  rw [toWord?_eq, truncatesTo_iff, Option.bind_eq_some_iff]
  constructor
  · rintro ⟨k, hk, ha⟩
    rw [hk, Word.ofInt?_eq_some_iff.1 ha]
  · intro h
    exact ⟨a.val, h, Word.ofInt?_val a⟩

theorem toWord?_eq_none_iff : x.toWord? = none ↔ ∀ n, x.TruncatesTo n → ¬ Word.Holds n := by
  rw [toWord?_eq, Option.bind_eq_none_iff]
  refine forall_congr' fun n => ?_
  rw [truncatesTo_iff, Word.ofInt?_eq_none_iff, Word.Holds]
  refine imp_congr_right fun _ => ?_
  omega

end

end Binary64

namespace Value

/-- What becomes of a double that stands for seconds: a time without its fraction if that fits, and
else a refusal. -/
inductive InSeconds (x : Binary64) : Except Fault Value → Prop
  | truncated {d : Duration} : x.TruncatesTo d.seconds.val → InSeconds x (.ok (time d))
  | refused : (∀ n, x.TruncatesTo n → ¬ Word.Holds n) →
      InSeconds x (.error (.arithmetic .outOfRange))

theorem inSeconds_inRange (x : Binary64) :
    InSeconds x ((inRange (x.toWord?.map Duration.mk)).mapError .arithmetic) := by
  cases h : x.toWord? with
  | some a => exact .truncated (Binary64.toWord?_eq_some_iff.1 h)
  | none => exact .refused (Binary64.toWord?_eq_none_iff.1 h)

theorem apply_div_of_isZero {x : Binary64} (h : x.isZero = true) (d : Duration) :
    apply .div (time d) (number (.real x)) = .error (.arithmetic .divisionByZero) := by
  have hzero : (Number.real x).isZero = true := h
  simp only [apply, applyTime?, Duration.divide, if_pos hzero]
  rfl

theorem inSeconds_div {x : Binary64} (h : ¬ x.isZero = true) (d : Duration) :
    InSeconds (.ofInt d.seconds.val / x) (apply .div (time d) (number (.real x))) := by
  have hzero : ¬ (Number.real x).isZero = true := h
  have hdivide : apply .div (time d) (number (.real x)) = (inRange
      ((Binary64.ofInt d.seconds.val / x).toWord?.map Duration.mk)).mapError .arithmetic := by
    simp only [apply, applyTime?, Duration.divide, if_neg hzero]
    cases (Binary64.ofInt d.seconds.val / x).toWord? with
    | some a => rfl
    | none => rfl
  rw [hdivide]
  exact inSeconds_inRange _

/-- A double becomes a word exactly if it is finite and a word can hold it without its fraction, and
then it is this word. So a time that is scaled or divided by a double is the double that this comes
to, without its fraction, or it is refused; it never wraps and is never saturated. -/
theorem float_seconds_exact_or_refused (d : Duration) (x : Binary64) :
    (∀ a : Word, x.toWord? = some a ↔ x.TruncatesTo a.val) ∧
    (x.toWord? = none ↔ ∀ n, x.TruncatesTo n → ¬ Word.Holds n) ∧
    InSeconds (.ofInt d.seconds.val * x) (apply .mul (time d) (number (.real x))) ∧
    InSeconds (.ofInt d.seconds.val * x) (apply .mul (number (.real x)) (time d)) ∧
    if x.isZero then
      apply .div (time d) (number (.real x)) = .error (.arithmetic .divisionByZero)
    else InSeconds (.ofInt d.seconds.val / x) (apply .div (time d) (number (.real x))) := by
  refine ⟨fun a => Binary64.toWord?_eq_some_iff, Binary64.toWord?_eq_none_iff,
    inSeconds_inRange _, inSeconds_inRange _, ?_⟩
  split
  · rename_i hzero
    exact apply_div_of_isZero hzero d
  · rename_i hzero
    exact inSeconds_div hzero d

-- the last double before `2 ^ 63` is let through, and so is `-2 ^ 63`; their neighbours are not
example :
    (Binary64.ofInt 0x7ffffffffffffc00).toWord?.map Word.val = some 0x7ffffffffffffc00 ∧
    (Binary64.ofInt 0x8000000000000000).toWord? = none ∧
    (Binary64.ofInt (-0x8000000000000000)).toWord? = some .least ∧
    (Binary64.ofInt (-0x8000000000000800)).toWord? = none := by
  decide +kernel

end Value

end ClockCalc

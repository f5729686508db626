import ClockCalc.Proofs.Numerals
import ClockCalc.Proofs.Shown
import Mathlib.Algebra.Order.Field.Basic
import Mathlib.Algebra.Order.Field.Rat
import Mathlib.Algebra.Ring.Int.Parity
import Mathlib.Tactic.FieldSimp
import Mathlib.Tactic.Linarith
import Mathlib.Tactic.Positivity
import Mathlib.Tactic.Ring

/-! The number that is shown is the exact one, rounded once. A double is a rational. If that is an
integer, the integer is shown, as it would be if it were no double. From any other the nearest
multiple of 1/100 is taken, at a tie the even one, and the sign stays even if that is zero. -/

namespace ClockCalc

/-- No multiple of 1/100 is nearer to `q` than the one with the factor `m`, and if another one is as
near, `m` is even. -/
def IsNearestHundredth (q : ℚ) (m : ℤ) : Prop :=
  ∀ k : ℤ, k ≠ m → |q - m / 100| < |q - k / 100| ∨ |q - m / 100| = |q - k / 100| ∧ Even m

namespace IsNearestHundredth

variable {q : ℚ} {m : ℤ}

theorem neg (h : IsNearestHundredth q m) : IsNearestHundredth (-q) (-m) := by
  have hflip (j : ℤ) : |-q - j / 100| = |q - (-j : ℤ) / 100| := by
    rw [← abs_neg]
    congr 1
    push_cast
    ring
  intro k hk
  rw [hflip, hflip, neg_neg]
  rcases h (-k) (by omega) with hlt | ⟨heq, heven⟩
  · exact .inl hlt
  · exact .inr ⟨heq, heven.neg⟩

/-- Two multiples are at least 1/100 apart, so none is nearer than one within half of that. -/
theorem of_le (hle : |q - m / 100| ≤ 1 / 200) (htie : |q - m / 100| = 1 / 200 → Even m) :
    IsNearestHundredth q m := by
  intro k hk
  have hstep : (1 : ℚ) ≤ |(m : ℚ) - k| := by
    have hint : 1 ≤ |m - k| := Int.one_le_abs (sub_ne_zero.2 hk.symm)
    exact_mod_cast hint
  have hapart : |(m : ℚ) / 100 - k / 100| = |(m : ℚ) - k| / 100 := by
    rw [← sub_div, abs_div]
    norm_num
  have htriangle : |(m : ℚ) / 100 - k / 100| ≤ |q - m / 100| + |q - k / 100| := by
    have hsub := abs_sub_le ((m : ℚ) / 100) q (k / 100)
    rwa [abs_sub_comm ((m : ℚ) / 100) q] at hsub
  have hfar : 1 / 200 ≤ |q - k / 100| := by linarith
  rcases hle.lt_or_eq with hlt | heq
  · exact .inl (hlt.trans_le hfar)
  · rcases hfar.lt_or_eq with hfarther | hsame
    · exact .inl (heq ▸ hfarther)
    · exact .inr ⟨heq.trans hsame, htie heq⟩

end IsNearestHundredth

theorem even_add_mod_two (n : ℕ) : Even (n + n % 2) := by
  rw [Nat.even_iff]
  omega

theorem div_eq_add_rest (n : ℕ) {d : ℕ} (hd : (0 : ℚ) < d) :
    (n : ℚ) / d = (n / d : ℕ) + (n % d : ℕ) / d := by
  rw [div_eq_iff hd.ne', add_mul, div_mul_cancel₀ _ hd.ne']
  exact_mod_cast (Nat.div_add_mod' n d).symm

/-- A quotient is rounded by at most a half, and by a half only to an even number. The cases are
those of `roundQuotient`. -/
theorem abs_sub_roundQuotient (n : ℕ) {d : ℕ} (hd : 0 < d) :
    |(n : ℚ) / d - roundQuotient n d| ≤ 1 / 2 ∧
      (|(n : ℚ) / d - roundQuotient n d| = 1 / 2 → Even (roundQuotient n d)) := by
  have hdq : (0 : ℚ) < d := Nat.cast_pos.2 hd
  have hnonneg : (0 : ℚ) ≤ (n % d : ℕ) / d := by positivity
  have hless : ((n % d : ℕ) : ℚ) / d < 1 := by
    rw [div_lt_one hdq]
    exact_mod_cast Nat.mod_lt n hd
  rw [div_eq_add_rest n hdq]
  simp only [roundQuotient]
  split_ifs with hbelow habove
  · have hhalf : ((n % d : ℕ) : ℚ) / d < 1 / 2 := by
      rw [div_lt_div_iff₀ hdq two_pos]
      exact_mod_cast (by omega : n % d * 2 < 1 * d)
    rw [add_sub_cancel_left, abs_of_nonneg hnonneg]
    exact ⟨hhalf.le, fun h => absurd h hhalf.ne⟩
  · have hhalf : 1 / 2 < ((n % d : ℕ) : ℚ) / d := by
      rw [div_lt_div_iff₀ two_pos hdq]
      exact_mod_cast (by omega : 1 * d < n % d * 2)
    have hdiff : ((n / d : ℕ) : ℚ) + (n % d : ℕ) / d - (n / d + 1 : ℕ) =
        -(1 - (n % d : ℕ) / d) := by
      push_cast
      ring
    rw [hdiff, abs_neg, abs_of_nonneg (by linarith)]
    exact ⟨by linarith, fun h => by linarith⟩
  · have hhalf : ((n % d : ℕ) : ℚ) / d = 1 / 2 := by
      rw [div_eq_div_iff hdq.ne' two_ne_zero]
      exact_mod_cast (by omega : n % d * 2 = 1 * d)
    have hdiff : |((n / d : ℕ) : ℚ) + (n % d : ℕ) / d - (n / d + n / d % 2 : ℕ)| = 1 / 2 := by
      rw [hhalf]
      rcases Nat.mod_two_eq_zero_or_one (n / d) with hparity | hparity
      · rw [hparity, Nat.add_zero, add_sub_cancel_left, abs_of_pos one_half_pos]
      · rw [hparity]
        push_cast
        rw [add_sub_add_left_eq_sub]
        norm_num
    exact ⟨hdiff.le, fun _ => even_add_mod_two _⟩

theorem isNearestHundredth_roundQuotient (n : ℕ) {d : ℕ} (hd : 0 < d) :
    IsNearestHundredth (n / d) (roundQuotient (n * 100) d) := by
  have hscale : |(n : ℚ) / d - ((roundQuotient (n * 100) d : ℕ) : ℤ) / 100| =
      |((n * 100 : ℕ) : ℚ) / d - roundQuotient (n * 100) d| / 100 := by
    have hdiff : (n : ℚ) / d - ((roundQuotient (n * 100) d : ℕ) : ℤ) / 100 =
        (((n * 100 : ℕ) : ℚ) / d - roundQuotient (n * 100) d) / 100 := by
      push_cast
      ring
    rw [hdiff, abs_div]
    norm_num
  obtain ⟨hle, htie⟩ := abs_sub_roundQuotient (n * 100) hd
  refine .of_le (by rw [hscale]; linarith) fun h => ?_
  rw [hscale] at h
  exact_mod_cast htie (by linarith)

namespace Numeral

/-- The number with these digits before and behind the point. -/
def pointed (ds fs : List Char) : ℚ := value (ds ++ fs) / 10 ^ fs.length

theorem pointed_places (n : ℕ) : pointed (digits (n / 100)) (places n) = n / 100 := by
  have hdigit (k : ℕ) : value [(k % 10).digitChar] = k % 10 := by
    rw [← digits_of_lt (Nat.mod_lt k (by decide)), value_digits]
  have htenths : value (digits (n / 100) ++ [(n / 10 % 10).digitChar]) = n / 10 := by
    rw [value_append, value_digits, hdigit, List.length_singleton, show tenTo 1 = 10 from rfl]
    omega
  unfold pointed places
  split
  · have hwhole : n = 10 * (n / 10) := by omega
    rw [htenths, List.length_singleton, pow_one]
    nth_rewrite 2 [hwhole]
    push_cast
    ring
  · have hvalue :
        value (digits (n / 100) ++ [(n / 10 % 10).digitChar, (n % 10).digitChar]) = n := by
      rw [List.append_cons, value_append, htenths, hdigit, List.length_singleton,
        show tenTo 1 = 10 from rfl]
      omega
    rw [hvalue]
    norm_num

end Numeral

namespace Binary64

open Numeral

/-- The nearest multiple of 1/100, at a tie the even one, written with the sign of `q`, a point, and
one place or two that do not end in zero. -/
def IsRounding (q : ℚ) (cs : List Char) : Prop :=
  ∃ (ds fs : List Char) (m : ℤ),
    cs = signChars (q < 0) ++ ds ++ '.' :: fs ∧ IsPlain ds ∧ IsPlaces fs ∧
    (if q < 0 then -pointed ds fs else pointed ds fs) = m / 100 ∧ IsNearestHundredth q m

/-- The exact value. -/
def rational? (x : Binary64) : Option ℚ := x.units?.map fun units : ℤ => (units : ℚ) / one

variable {x : Binary64} {q : ℚ}

theorem one_pos : (0 : ℚ) < one := Nat.cast_pos.2 (by decide)

theorem rational?_eq_some_intCast_iff {k : ℤ} :
    x.rational? = some (k : ℚ) ↔ x.units? = some (k * one) := by
  rw [rational?, Option.map_eq_some_iff]
  constructor
  · rintro ⟨units, hunits, hk⟩
    rw [div_eq_iff one_pos.ne'] at hk
    have hint : (units : ℚ) = (k * (one : ℕ) : ℤ) := by rw [hk, Int.cast_mul, Int.cast_natCast]
    rw [hunits, Int.cast_inj.1 hint]
  · intro h
    refine ⟨_, h, ?_⟩
    rw [div_eq_iff one_pos.ne']
    push_cast
    rfl

theorem shownText_of_rational? {k : ℤ} (h : x.rational? = some (k : ℚ)) :
    x.shownText = intText k := by
  have hunits := rational?_eq_some_intCast_iff.1 h
  rw [shownText, if_pos (isWhole_iff.2 ⟨k, hunits⟩), wholeText_eq_intText hunits]

theorem exists_rational?_of_isWhole (h : x.isWhole = true) :
    ∃ k : ℤ, x.rational? = some (k : ℚ) := by
  obtain ⟨k, hk⟩ := isWhole_iff.1 h
  exact ⟨k, rational?_eq_some_intCast_iff.2 hk⟩

theorem rational?_finite (negative : Bool) (rank : Fin infiniteRank) :
    (finite negative rank).rational? =
      some (if negative then -(unitsOfRank rank / one : ℚ) else unitsOfRank rank / one) := by
  cases negative with
  | false =>
    change some (((unitsOfRank rank : ℕ) : ℤ) / one : ℚ) = some (unitsOfRank rank / one : ℚ)
    rw [Int.cast_natCast]
  | true =>
    change some ((-(unitsOfRank rank : ℕ) : ℤ) / one : ℚ) = some (-(unitsOfRank rank / one : ℚ))
    rw [Int.cast_neg, Int.cast_natCast, neg_div]

/-- A value with a fraction is not zero, so its sign shows in the double. -/
theorem decide_neg_of_fraction {negative : Bool} {rank : Fin infiniteRank}
    (h : (finite negative rank).rational? = some q) (hfraction : ∀ k : ℤ, q ≠ k) :
    decide (q < 0) = negative := by
  have hnonneg : 0 ≤ (unitsOfRank rank / one : ℚ) := div_nonneg (Nat.cast_nonneg _) one_pos.le
  have hzero : q ≠ 0 := by exact_mod_cast hfraction 0
  rw [rational?_finite, Option.some.injEq] at h
  cases negative with
  | false =>
    rw [decide_eq_false_iff_not, not_lt, ← h]
    exact hnonneg
  | true =>
    rw [decide_eq_true_iff]
    refine lt_of_le_of_ne ?_ hzero
    rw [← h]
    exact neg_nonpos.2 hnonneg

theorem isRounding_shownText (h : x.rational? = some q) (hfraction : ∀ k : ℤ, q ≠ k) :
    IsRounding q x.shownText.toList := by
  cases x with
  | nan s | infinite s => cases h
  | finite negative rank =>
    have hwhole : (finite negative rank).isWhole ≠ true := by
      intro hwhole
      obtain ⟨k, hk⟩ := exists_rational?_of_isWhole hwhole
      exact hfraction k (Option.some.inj (h.symm.trans hk))
    have hsign := decide_neg_of_fraction h hfraction
    have hnearest := isNearestHundredth_roundQuotient (unitsOfRank rank) (by decide : 0 < one)
    have htext := shownText_fraction (n := roundQuotient (unitsOfRank rank * 100) one) hwhole rfl
    rw [rational?_finite, Option.some.injEq] at h
    generalize roundQuotient (unitsOfRank rank * 100) one = n at hnearest htext
    refine ⟨digits (n / 100), places n, if negative then -n else n, ?_, isPlain_digits _,
      isPlaces_places n, ?_, ?_⟩
    · rw [hsign, htext]
    · rw [pointed_places]
      cases negative with
      | false =>
        rw [if_neg (of_decide_eq_false hsign)]
        rfl
      | true =>
        rw [if_pos (of_decide_eq_true hsign), ← neg_div]
        simp
    · cases negative with
      | false => exact h ▸ hnearest
      | true => exact h ▸ hnearest.neg

/-- What is shown of a finite double is its exact value correctly rounded. A value without a
fraction is shown as the integer that it is, the same for a double and for an integer. Any other is
shown by the nearest multiple of 1/100, with its own sign. -/
theorem shown_correctly_rounded (h : x.rational? = some q) :
    (∀ k : ℤ, q = k → x.shownText = intText k) ∧
    (q = 0 → x.shownText = "0") ∧
    (∀ n : Word, q = n.val → (Number.real x).text = (Number.integer n).text) ∧
    ((∀ k : ℤ, q ≠ k) → IsRounding q x.shownText.toList) := by
  have hwhole (k : ℤ) (hk : q = k) : x.shownText = intText k := shownText_of_rational? (hk ▸ h)
  refine ⟨hwhole, fun hzero => ?_, fun n hn => hwhole n.val hn, isRounding_shownText h⟩
  exact hwhole 0 (by rw [hzero, Int.cast_zero])

/-- Half way between two multiples, and below zero. -/
theorem shown_correctly_rounded_at_tie :
    let x : Binary64 := finite true ⟨0x3fc0000000000000, by decide⟩
    let q : ℚ := -(1 / 8)
    x.rational? = some q ∧ (∀ k : ℤ, q ≠ k) ∧ x.shownText = "-0.12" ∧
      IsRounding q x.shownText.toList := by
  intro x q
  have hunits : unitsOfRank 0x3fc0000000000000 * 8 = one := by decide
  have hcast : (unitsOfRank 0x3fc0000000000000 : ℚ) * 8 = one := by
    rw [← hunits, Nat.cast_mul, Nat.cast_ofNat]
  have hne : (unitsOfRank 0x3fc0000000000000 : ℚ) ≠ 0 := Nat.cast_ne_zero.2 (by decide)
  have hexact : x.rational? = some q := by
    rw [rational?_finite, if_pos rfl, ← hcast, div_mul_cancel_left₀ hne, ← one_div]
  have hfraction (k : ℤ) : q ≠ k := by
    intro hk
    have height : (-1 : ℚ) = (k * 8 : ℤ) := by
      rw [Int.cast_mul, ← hk]
      norm_num [q]
    have hint : -1 = k * 8 := by exact_mod_cast height
    omega
  exact ⟨hexact, hfraction, by decide, (shown_correctly_rounded hexact).2.2.2 hfraction⟩

end Binary64

end ClockCalc

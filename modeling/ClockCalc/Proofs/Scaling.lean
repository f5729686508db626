import ClockCalc.Proofs.Amounts
import ClockCalc.Proofs.Except

/-! Times that are multiplied and divided by integers. Both operations are exact or have no result,
so the laws of division with a remainder hold for them up to the limits of the range. The quotient
loses its fraction, and only the least time over `-1` has none. -/

namespace ClockCalc

/-- A quotient of `n` by `k` without its fraction. What it leaves over is less than `k` and has the
sign of `n`. -/
def IsQuotient (n k q : Int) : Prop :=
  (n - q * k).natAbs < k.natAbs ∧ (n - q * k = 0 ∨ (n - q * k).sign = n.sign)

theorem isQuotient_tdiv (n : Int) {k : Int} (hk : k ≠ 0) : IsQuotient n k (n.tdiv k) := by
  have hrest : n - n.tdiv k * k = n.tmod k := by rw [Int.tmod_def, Int.mul_comm]
  rw [IsQuotient, hrest]
  refine ⟨?_, ?_⟩
  · rw [Int.natAbs_tmod]
    exact Nat.mod_lt _ (by omega)
  · rw [← Int.sign_eq_zero_iff_zero, Int.sign_tmod]
    split
    · exact .inl rfl
    · exact .inr rfl

namespace Word

variable {a b : Word}

theorem tdiv?_of_ne_zero (hb : b.val ≠ 0) : a.tdiv? b = ofInt? (a.val.tdiv b.val) := if_neg hb

/-- A quotient is no farther from zero than what is divided, and but for the divisors `1` and `-1`
at most half as far. -/
theorem holds_tdiv_iff (hb : b.val ≠ 0) :
    Holds (a.val.tdiv b.val) ↔ ¬ (a = least ∧ b.val = -1) := by
  have hleast : a = least ↔ a.val = -0x8000000000000000 := ⟨congrArg val, fun h => ext_val h⟩
  have hlower := a.lower
  have hupper := a.upper
  rw [hleast]
  unfold Holds
  by_cases hminus : b.val = -1
  · rw [hminus, Int.tdiv_neg, Int.tdiv_one]
    omega
  · by_cases hone : b.val = 1
    · rw [hone, Int.tdiv_one]
      omega
    · have hhalf : (a.val.tdiv b.val).natAbs ≤ a.val.natAbs / 2 := by
        rw [Int.natAbs_tdiv]
        exact Nat.div_le_div_left (by omega) (by decide)
      omega

theorem ne_least_of_neg (h : b.val = -a.val) : a ≠ least := by
  have hlower := a.lower
  have hupper := a.upper
  have hneg := b.upper
  rw [ne_least_iff]
  omega

/-- A multiple of the divisor that leaves the remainder is between zero and what is divided. -/
theorem holds_sub_tmod (a : Word) (b : Int) : Holds (a.val - a.val.tmod b) := by
  have habs : (a.val.tmod b).natAbs ≤ a.val.natAbs := by
    rw [Int.natAbs_tmod]
    exact Nat.mod_le _ _
  have hlower := a.lower
  have hupper := a.upper
  unfold Holds
  rcases Int.le_total 0 a.val with ha | ha
  · have := Int.tmod_nonneg b ha
    omega
  · have hneg := Int.tmod_nonneg b (Int.neg_nonneg_of_nonpos ha)
    rw [Int.neg_tmod] at hneg
    omega

end Word

namespace Value

/-- A value with an integer factor. -/
def times (v : Value) (k : Word) : Except Fault Value := apply .mul v (.number (.integer k))

/-- A value with an integer divisor. -/
def dividedBy (v : Value) (k : Word) : Except Fault Value := apply .div v (.number (.integer k))

variable {d : Duration} {k : Word} {v n : Value} {fault : Fault}

theorem inRange_ofInt?_eq_ok_iff {m : Int} :
    inRange ((Word.ofInt? m).map Duration.mk) = .ok v ↔
      ∃ p : Duration, v = time p ∧ p.seconds.val = m := by
  constructor
  · intro h
    cases hm : Word.ofInt? m with
    | none =>
      rw [hm] at h
      cases h
    | some a =>
      rw [hm] at h
      cases h
      exact ⟨⟨a⟩, rfl, (Word.ofInt?_eq_some_iff.1 hm).symm⟩
  · rintro ⟨p, rfl, rfl⟩
    rw [Word.ofInt?_val]
    rfl

theorem times_eq_ok_iff :
    (time d).times k = .ok v ↔
      ∃ p : Duration, v = time p ∧ p.seconds.val = d.seconds.val * k.val := by
  rw [← inRange_ofInt?_eq_ok_iff]
  exact mapError_eq_ok_iff

theorem minus_eq_ok_iff :
    (time d).applySign .minus = .ok v ↔
      ∃ n : Duration, v = time n ∧ n.seconds.val = -d.seconds.val :=
  inRange_ofInt?_eq_ok_iff

theorem dividedBy_of_ne_zero (hk : k.val ≠ 0) :
    (time d).dividedBy k =
      (inRange ((Word.ofInt? (d.seconds.val.tdiv k.val)).map Duration.mk)).mapError
        .arithmetic := by
  have hzero : (Number.integer k).isZero = false := by simpa [Number.isZero] using hk
  simp only [dividedBy, apply, applyTime?, Duration.divide, hzero, Word.tdiv?_of_ne_zero hk]
  cases Word.ofInt? (d.seconds.val.tdiv k.val) <;> rfl

theorem dividedBy_eq_ok_iff (hk : k.val ≠ 0) :
    (time d).dividedBy k = .ok v ↔
      ∃ q : Duration, v = time q ∧ q.seconds.val = d.seconds.val.tdiv k.val := by
  rw [dividedBy_of_ne_zero hk, mapError_eq_ok_iff, inRange_ofInt?_eq_ok_iff]

theorem dividedBy_eq_error_iff (hk : k.val ≠ 0) :
    (time d).dividedBy k = .error fault ↔
      fault = .arithmetic .outOfRange ∧ d.seconds = Word.least ∧ k.val = -1 := by
  rw [dividedBy_of_ne_zero hk]
  by_cases hfits : Word.Holds (d.seconds.val.tdiv k.val)
  · obtain ⟨a, ha, -⟩ := Word.exists_of_holds hfits
    rw [ha]
    refine iff_of_false (by simp [inRange]) ?_
    rintro ⟨-, hlimit⟩
    exact (Word.holds_tdiv_iff hk).1 hfits hlimit
  · have hlimit : d.seconds = Word.least ∧ k.val = -1 :=
      Decidable.not_not.1 (mt (Word.holds_tdiv_iff hk).2 hfits)
    rw [Word.ofInt?_of_not_holds hfits, and_iff_left hlimit]
    simp [inRange, eq_comm]

/-- What is multiplied is divided back. -/
theorem dividedBy_of_times (h : (time d).times k = .ok v) (hk : k.val ≠ 0) :
    v.dividedBy k = .ok (time d) := by
  obtain ⟨p, rfl, hp⟩ := times_eq_ok_iff.1 h
  refine (dividedBy_eq_ok_iff hk).2 ⟨d, rfl, ?_⟩
  rw [hp, Int.mul_tdiv_cancel _ hk]

/-- A quotient can be multiplied again. -/
theorem times_of_dividedBy (h : (time d).dividedBy k = .ok v) (hk : k.val ≠ 0) :
    ∃ q p : Duration, v = time q ∧ IsQuotient d.seconds.val k.val q.seconds.val ∧
      (time q).times k = .ok (time p) ∧ p.seconds.val = q.seconds.val * k.val := by
  obtain ⟨q, rfl, hq⟩ := (dividedBy_eq_ok_iff hk).1 h
  have hrest : q.seconds.val * k.val = d.seconds.val - d.seconds.val.tmod k.val := by
    rw [hq, Int.tmod_def, Int.mul_comm]
    omega
  obtain ⟨a, -, ha⟩ := Word.exists_of_holds (Word.holds_sub_tmod d.seconds k.val)
  have hval : a.val = q.seconds.val * k.val := ha.trans hrest.symm
  exact ⟨q, ⟨a⟩, rfl, hq ▸ isQuotient_tdiv _ hk, times_eq_ok_iff.2 ⟨⟨a⟩, rfl, hval⟩, hval⟩

theorem dividedBy_of_minus (h : (time d).applySign .minus = .ok n) (hk : k.val ≠ 0) :
    ∃ q m, (time d).dividedBy k = .ok q ∧ q.applySign .minus = .ok m ∧ n.dividedBy k = .ok m := by
  obtain ⟨e, rfl, he⟩ := minus_eq_ok_iff.1 h
  have hd : d.seconds ≠ Word.least := Word.ne_least_of_neg he
  have hneg : d.seconds.val = -e.seconds.val := by omega
  have hquotient {a : Word} (ha : a ≠ Word.least) : Word.Holds (a.val.tdiv k.val) :=
    (Word.holds_tdiv_iff hk).2 fun hlimit => ha hlimit.1
  obtain ⟨q, -, hq⟩ := Word.exists_of_holds (hquotient hd)
  obtain ⟨m, -, hm⟩ := Word.exists_of_holds (hquotient (Word.ne_least_of_neg hneg))
  refine ⟨time ⟨q⟩, time ⟨m⟩, (dividedBy_eq_ok_iff hk).2 ⟨⟨q⟩, rfl, hq⟩,
    minus_eq_ok_iff.2 ⟨⟨m⟩, rfl, ?_⟩, (dividedBy_eq_ok_iff hk).2 ⟨⟨m⟩, rfl, hm⟩⟩
  rw [hm, he, Int.neg_tdiv, hq]

theorem times_of_minus {m : Value} (hn : (time d).applySign .minus = .ok n)
    (hv : (time d).times k = .ok v) (hm : v.applySign .minus = .ok m) : n.times k = .ok m := by
  obtain ⟨e, rfl, he⟩ := minus_eq_ok_iff.1 hn
  obtain ⟨p, rfl, hp⟩ := times_eq_ok_iff.1 hv
  obtain ⟨o, rfl, ho⟩ := minus_eq_ok_iff.1 hm
  exact times_eq_ok_iff.2 ⟨o, rfl, by rw [ho, hp, he, Int.neg_mul]⟩

/-- Multiplication and division by integers obey these laws for every time and every integer. A
product is divided back. A quotient loses no more than its fraction, and can be multiplied again.
Only the least time over `-1` has no quotient. A sign can be taken out of quotients and products
where the negatives exist. -/
theorem division_laws (d : Duration) (k : Word) :
    (∀ v, (time d).times k = .ok v → k.val ≠ 0 → v.dividedBy k = .ok (time d)) ∧
    (∀ v, (time d).dividedBy k = .ok v → k.val ≠ 0 →
      ∃ q p : Duration, v = time q ∧ IsQuotient d.seconds.val k.val q.seconds.val ∧
        (time q).times k = .ok (time p) ∧ p.seconds.val = q.seconds.val * k.val) ∧
    (∀ fault, k.val ≠ 0 → ((time d).dividedBy k = .error fault ↔
      fault = .arithmetic .outOfRange ∧ d.seconds = Word.least ∧ k.val = -1)) ∧
    (∀ n, (time d).applySign .minus = .ok n → k.val ≠ 0 →
      ∃ q m, (time d).dividedBy k = .ok q ∧ q.applySign .minus = .ok m ∧ n.dividedBy k = .ok m) ∧
    (∀ n v m, (time d).applySign .minus = .ok n → (time d).times k = .ok v →
      v.applySign .minus = .ok m → n.times k = .ok m) :=
  ⟨fun _ => dividedBy_of_times, fun _ => times_of_dividedBy, fun _ => dividedBy_eq_error_iff,
    fun _ => dividedBy_of_minus, fun _ _ _ => times_of_minus⟩

/-- Near half of the range a negative divisor leaves one second over. -/
theorem division_laws_near_half :
    let d : Duration := ⟨⟨-0x3fffffffffffffff, by decide, by decide⟩⟩
    let k : Word := ⟨-2, by decide, by decide⟩
    let product : Value := time ⟨⟨0x7ffffffffffffffe, by decide, by decide⟩⟩
    let quotient : Value := time ⟨⟨0x1fffffffffffffff, by decide, by decide⟩⟩
    let negated : Value := time ⟨⟨0x3fffffffffffffff, by decide, by decide⟩⟩
    let negatedProduct : Value := time ⟨⟨-0x7ffffffffffffffe, by decide, by decide⟩⟩
    (time d).times k = .ok product ∧ product.dividedBy k = .ok (time d) ∧
      (time d).dividedBy k = .ok quotient ∧
      (∃ q p : Duration, quotient = time q ∧ IsQuotient d.seconds.val k.val q.seconds.val ∧
        (time q).times k = .ok (time p) ∧ p.seconds.val = q.seconds.val * k.val) ∧
      (time d).applySign .minus = .ok negated ∧
      (∃ q m, (time d).dividedBy k = .ok q ∧ q.applySign .minus = .ok m ∧
        negated.dividedBy k = .ok m) ∧
      product.applySign .minus = .ok negatedProduct ∧ negated.times k = .ok negatedProduct := by
  intro d k product quotient negated negatedProduct
  obtain ⟨hback, hrest, -, hsign, hproduct⟩ := division_laws d k
  have hk : k.val ≠ 0 := by decide
  exact ⟨rfl, hback product rfl hk, rfl, hrest quotient rfl hk, rfl, hsign negated rfl hk, rfl,
    hproduct negated product negatedProduct rfl rfl rfl⟩

-- the one quotient that does not fit
example : (time ⟨Word.least⟩).dividedBy ⟨-1, by decide, by decide⟩ =
    .error (.arithmetic .outOfRange) := rfl

end Value

end ClockCalc

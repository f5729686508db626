import ClockCalc.Number
import ClockCalc.Proofs.Amounts
import Mathlib.Algebra.Group.Int.Defs

/-! Powers of integers. Two limits decide whether a power stays an integer: the power has to fit,
and so has the exponent, in 32 bits. Only the bases `-1`, `0` and `1` have powers that fit under an
exponent that does not, so for every other base the second limit is no limit at all. -/

namespace ClockCalc

namespace Word

/-- A power that fits of a base of two or more has a small exponent. -/
theorem lt_of_holds_pow {b : Int} {n : Nat} (hb : 2 ≤ b.natAbs) (h : Holds (b ^ n)) : n < 64 :=
  Nat.lt_of_not_le fun hn => not_holds_pow hb hn h

end Word

namespace Number

theorem ofFinite_ne_integer (x : Binary64) (n : Word) : ofFinite x ≠ .ok (.integer n) := by
  intro h
  unfold ofFinite at h
  split at h
  · cases Except.ok.inj h
  · cases h

/-- Two integers come to an integer exactly where the exact operation has a result. -/
theorem combine_eq_integer_iff {exact : Word → Word → Option Word}
    {rounded : Binary64 → Binary64 → Binary64} {a b n : Word} :
    combine exact rounded (.integer a) (.integer b) = .ok (.integer n) ↔ exact a b = some n := by
  cases hexact : exact a b with
  | some m => simp [combine, hexact]
  | none => simpa [combine, hexact] using ofFinite_ne_integer _ n

theorem exponent?_eq_some_iff {exponent : Word} {k : Nat} :
    exponent? exponent = some k ↔ exponent.val = k ∧ k < 0x100000000 := by
  unfold exponent?
  split
  · rw [Option.some.injEq]
    omega
  · constructor
    · intro h
      cases h
    · intro h
      omega

theorem exactPow?_eq_some_iff {base exponent n : Word} :
    exactPow? base exponent = some n ↔
      ∃ k : Nat, exponent.val = k ∧ k < 0x100000000 ∧ n.val = base.val ^ k := by
  unfold exactPow?
  rw [Option.bind_eq_some_iff]
  constructor
  · rintro ⟨k, hk, hn⟩
    obtain ⟨hval, hlt⟩ := exponent?_eq_some_iff.1 hk
    rw [Word.pow?_eq_ofInt?, Word.ofInt?_eq_some_iff] at hn
    exact ⟨k, hval, hlt, hn.symm⟩
  · rintro ⟨k, hval, hlt, hn⟩
    refine ⟨k, exponent?_eq_some_iff.2 ⟨hval, hlt⟩, ?_⟩
    rw [Word.pow?_eq_ofInt?, Word.ofInt?_eq_some_iff]
    exact hn.symm

/-- A power of integers is an integer exactly if the exponent is not negative and the exact power
fits, and then it is that power; but the exponent must have at most 32 bits if the base is `-1`,
`0` or `1`. -/
theorem power_is_exact_iff (base exponent n : Word) :
    apply .pow (.integer base) (.integer exponent) = .ok (.integer n) ↔
      ∃ k : Nat, exponent.val = k ∧ n.val = base.val ^ k ∧
        (k < 0x100000000 ∨ 2 ≤ base.val.natAbs) := by
  have happly : apply .pow (.integer base) (.integer exponent) =
      combine exactPow? Binary64.pow (.integer base) (.integer exponent) := rfl
  rw [happly, combine_eq_integer_iff, exactPow?_eq_some_iff]
  constructor
  · rintro ⟨k, hval, hlt, hn⟩
    exact ⟨k, hval, hn, .inl hlt⟩
  · rintro ⟨k, hval, hn, hlimit⟩
    refine ⟨k, hval, ?_, hn⟩
    rcases hlimit with hlt | hbase
    · exact hlt
    · have hfits : Word.Holds (base.val ^ k) := hn ▸ n.holds_val
      have hsmall := Word.lt_of_holds_pow hbase hfits
      omega

/-- One to the power of `2 ^ 32` is no integer any more, though one would fit. -/
theorem power_of_one_is_rounded :
    (1 : Int) ^ 0x100000000 = 1 ∧
    apply .pow (.integer ⟨1, by decide, by decide⟩)
        (.integer ⟨0x100000000, by decide, by decide⟩) ≠
      .ok (.integer ⟨1, by decide, by decide⟩) := by
  refine ⟨Int.one_pow, ?_⟩
  intro h
  have hexact : exactPow? ⟨1, by decide, by decide⟩ ⟨0x100000000, by decide, by decide⟩ =
      some ⟨1, by decide, by decide⟩ := combine_eq_integer_iff.1 h
  obtain ⟨k, hval, hlt, -⟩ := exactPow?_eq_some_iff.1 hexact
  simp only at hval
  omega

end Number

end ClockCalc

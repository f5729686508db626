import ClockCalc.Numeral
import Mathlib.Algebra.Group.Nat.Defs

/-! Numerals and their values. Zeros before a run of digits do not count, each zero behind it counts
ten times, and runs of one length stand in the order of their values. -/

namespace ClockCalc

namespace Numeral

theorem value_cons (c : Char) (cs : List Char) :
    value (c :: cs) = 10 ^ cs.length * (c.toNat - '0'.toNat) + value cs := by
  rw [value, Nat.ofDigitChars_cons, Nat.mul_zero, Nat.zero_add,
    Nat.ofDigitChars_eq_ofDigitChars_zero, value]

theorem value_lt {cs : List Char} (h : ∀ c ∈ cs, c.isDigit) : value cs < 10 ^ cs.length := by
  induction cs with
  | nil => decide
  | cons c cs ih =>
    obtain ⟨hc, hcs⟩ := List.forall_mem_cons.1 h
    have hdigit : c.toNat - '0'.toNat ≤ 9 := by
      have := (Char.isDigit_iff_toNat.1 hc).2
      have : '9'.toNat = '0'.toNat + 9 := rfl
      omega
    have hhead := Nat.mul_le_mul_left (10 ^ cs.length) hdigit
    have := ih hcs
    rw [value_cons, List.length_cons, Nat.pow_succ]
    omega

/-- Runs of digits of one length stand in the order of their values. -/
theorem lt_of_value_lt {cs ds : List Char} (hcs : ∀ c ∈ cs, c.isDigit) (hds : ∀ d ∈ ds, d.isDigit)
    (hlength : cs.length = ds.length) (h : value cs < value ds) : cs < ds := by
  induction cs generalizing ds with
  | nil =>
    cases ds with
    | nil => exact absurd h (Nat.lt_irrefl _)
    | cons d ds => exact List.nil_lt_cons d ds
  | cons c cs ih =>
    cases ds with
    | nil => cases hlength
    | cons d ds =>
      obtain ⟨hc, hcs⟩ := List.forall_mem_cons.1 hcs
      obtain ⟨hd, hds⟩ := List.forall_mem_cons.1 hds
      have hlength : cs.length = ds.length := Nat.succ.inj hlength
      have hc := (Char.isDigit_iff_toNat.1 hc).1
      have hd := (Char.isDigit_iff_toNat.1 hd).1
      rw [value_cons, value_cons, hlength] at h
      rw [List.cons_lt_cons_iff]
      rcases Nat.lt_trichotomy c.toNat d.toNat with hlt | heq | hgt
      · exact .inl (UInt32.lt_iff_toNat_lt.2 hlt)
      · rw [heq] at h
        exact .inr ⟨Char.toNat_inj.1 heq, ih hcs hds hlength (by omega)⟩
      · -- a greater first digit outweighs all that follows
        have hstep : d.toNat - '0'.toNat + 1 ≤ c.toNat - '0'.toNat := by omega
        have hmul := Nat.mul_le_mul_left (10 ^ ds.length) hstep
        have := value_lt hds
        rw [Nat.mul_add, Nat.mul_one] at hmul
        omega

theorem tenTo_add (m n : Nat) : tenTo (m + n) = tenTo m * tenTo n := Nat.pow_add 10 m n

theorem tenTo_pos (k : Nat) : 0 < tenTo k := Nat.pow_pos (by decide)

theorem value_append (cs ds : List Char) :
    value (cs ++ ds) = tenTo ds.length * value cs + value ds := by
  rw [value, Nat.ofDigitChars_append, Nat.ofDigitChars_eq_ofDigitChars_zero]
  rfl

theorem value_zeros (k : Nat) : value (List.replicate k '0') = 0 :=
  Nat.ofDigitChars_replicate_zero

theorem value_zeros_append (k : Nat) (ds : List Char) :
    value (List.replicate k '0' ++ ds) = value ds := by
  rw [value_append, value_zeros, Nat.mul_zero, Nat.zero_add]

theorem value_append_zeros (ds : List Char) (k : Nat) :
    value (ds ++ List.replicate k '0') = value ds * tenTo k := by
  rw [value_append, value_zeros, Nat.add_zero, List.length_replicate, Nat.mul_comm]

theorem value_padded (width n : Nat) : value (padded width n) = n := by
  rw [padded, value_zeros_append, value_digits]

theorem isDigit_of_mem_zeros {k : Nat} {c : Char} (h : c ∈ List.replicate k '0') :
    c.isDigit = true := by
  rw [List.eq_of_mem_replicate h]
  rfl

theorem isDigit_of_mem_padded {width n : Nat} {c : Char} (h : c ∈ padded width n) :
    c.isDigit = true :=
  List.forall_mem_append.2 ⟨fun _ => isDigit_of_mem_zeros, fun _ => isDigit_of_mem_digits⟩ c h

theorem length_padded {width n : Nat} (h : (digits n).length ≤ width) :
    (padded width n).length = width := by
  rw [padded, List.length_append, List.length_replicate]
  omega

theorem length_digits_mono {m n : Nat} (h : m ≤ n) : (digits m).length ≤ (digits n).length := by
  have hpos : 0 < (digits n).length := Nat.length_toDigits_pos
  have hn := (Nat.length_toDigits_le_iff (b := 10) (by decide) hpos).1 (Nat.le_refl _)
  exact (Nat.length_toDigits_le_iff (by decide) hpos).2 (Nat.lt_of_le_of_lt h hn)

theorem padded_lt_padded {width m n : Nat} (hmn : m < n) (hn : (digits n).length ≤ width) :
    padded width m < padded width n := by
  have hm := Nat.le_trans (length_digits_mono (Nat.le_of_lt hmn)) hn
  refine lt_of_value_lt (fun _ => isDigit_of_mem_padded) (fun _ => isDigit_of_mem_padded) ?_ ?_
  · rw [length_padded hm, length_padded hn]
  · rwa [value_padded, value_padded]

end Numeral

end ClockCalc

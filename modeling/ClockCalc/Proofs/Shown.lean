import ClockCalc.Proofs.Finite
import ClockCalc.Proofs.Scanning

/-! What a reader is shown. A time is shown as `H:MM:SS`, a whole number by its digits, any other
number with one or two places after the point, and all of them perhaps with a sign. Nothing else is
ever shown, for no result is infinite or NaN, no double is written with an exponent, and the
negative zero loses its sign. -/

namespace ClockCalc

namespace Numeral

/-- `0`, or digits of which the first is not `0`. -/
inductive IsPlain : List Char → Prop
  | zero : IsPlain ['0']
  | positive {c cs} : c.isDigit = true → c ≠ '0' → (∀ d ∈ cs, d.isDigit = true) → IsPlain (c :: cs)

theorem IsPlain.isRun {ds : List Char} (h : IsPlain ds) : Token.IsRun ds := by
  cases h with
  | zero => exact ⟨by simp, by simp⟩
  | positive hc hzero hds => exact ⟨by simp, by simp [hc]; exact hds⟩

theorem digits_of_lt {n : Nat} (h : n < 10) : digits n = [n.digitChar] := Nat.toDigits_of_lt_base h

theorem digits_of_le {n : Nat} (h : 10 ≤ n) : digits n = digits (n / 10) ++ [(n % 10).digitChar] :=
  Nat.toDigits_of_base_le (by decide) h

theorem isDigit_digitChar_mod (n : Nat) : (n % 10).digitChar.isDigit = true := by
  simp [Nat.isDigit_digitChar, Nat.mod_lt]

theorem eq_zero_of_digits {n : Nat} (h : digits n = ['0']) : n = 0 := by
  rw [← value_digits n, h]
  rfl

theorem isPlain_digits (n : Nat) : IsPlain (digits n) := by
  induction n using Nat.strongRecOn with
  | ind n ih =>
    by_cases h : n < 10
    · rw [digits_of_lt h]
      by_cases hzero : n = 0
      · rw [hzero]
        exact .zero
      · exact .positive (by simp [Nat.isDigit_digitChar, h]) (by simpa using hzero) (by simp)
    · rw [digits_of_le (by omega)]
      have hlead := ih (n / 10) (by omega)
      generalize hds : digits (n / 10) = ds at hlead
      cases hlead with
      | zero =>
        have := eq_zero_of_digits hds
        omega
      | positive hc hzero hcs =>
        refine .positive hc hzero fun d hd => ?_
        rcases List.mem_append.1 hd with hd | hd
        · exact hcs d hd
        · rw [List.mem_singleton.1 hd]
          exact isDigit_digitChar_mod n

/-- Two digits that count up to 59. -/
def IsSixtieth (ds : List Char) : Prop :=
  match ds with
  | [tens, ones] => '0' ≤ tens ∧ tens ≤ '5' ∧ ones.isDigit = true
  | _ => False

instance (ds : List Char) : Decidable (IsSixtieth ds) :=
  match ds with
  | [_, _] => inferInstanceAs (Decidable (_ ∧ _ ∧ _))
  | [] | [_] | _ :: _ :: _ :: _ => inferInstanceAs (Decidable False)

theorem isSixtieth_padded {n : Nat} (h : n < 60) : IsSixtieth (padded 2 n) :=
  (by decide : ∀ n < 60, IsSixtieth (padded 2 n)) n h

/-- One digit, or two of which the second is not `0`. -/
def IsPlaces (ds : List Char) : Prop :=
  match ds with
  | [d] => d.isDigit = true
  | [d, e] => d.isDigit = true ∧ e.isDigit = true ∧ e ≠ '0'
  | _ => False

/-- The tenths of so many hundredths, and the hundredths beside them unless there are none. -/
def places (n : Nat) : List Char :=
  (n / 10 % 10).digitChar :: if n % 10 = 0 then [] else [(n % 10).digitChar]

theorem isPlaces_places (n : Nat) : IsPlaces (places n) := by
  unfold places
  split
  · exact isDigit_digitChar_mod _
  · exact ⟨isDigit_digitChar_mod _, isDigit_digitChar_mod n, by simpa⟩

end Numeral

open Numeral (IsPlain IsPlaces IsSixtieth)

def IsSign (cs : List Char) : Prop := cs = [] ∨ cs = ['-']

/-- The texts of results. -/
inductive Shown : Kind → List Char → Prop
  | whole {sign ds} : IsSign sign → IsPlain ds → sign ++ ds ≠ ['-', '0'] →
      Shown .number (sign ++ ds)
  | tenths {sign ds d} : IsSign sign → IsPlain ds → d.isDigit = true →
      Shown .number (sign ++ ds ++ ['.', d])
  | hundredths {sign ds d e} : IsSign sign → IsPlain ds → d.isDigit = true → e.isDigit = true →
      e ≠ '0' → Shown .number (sign ++ ds ++ ['.', d, e])
  | time {sign hours minutes seconds} : IsSign sign → IsPlain hours → IsSixtieth minutes →
      IsSixtieth seconds → Shown .time (sign ++ hours ++ ':' :: minutes ++ ':' :: seconds)

theorem Shown.places {sign ds fs : List Char} (hsign : IsSign sign) (hds : IsPlain ds)
    (hfs : IsPlaces fs) : Shown .number (sign ++ ds ++ '.' :: fs) := by
  unfold IsPlaces at hfs
  split at hfs
  · exact .tenths hsign hds hfs
  · exact .hundredths hsign hds hfs.1 hfs.2.1 hfs.2.2
  · exact hfs.elim

namespace Numeral

/-- A numeral with a sign that zero does not have. -/
theorem shown_digits {sign : List Char} {n : Nat} (hsign : IsSign sign)
    (hzero : n = 0 → sign = []) : Shown .number (sign ++ digits n) := by
  refine Shown.whole hsign (isPlain_digits n) fun h => ?_
  rcases hsign with rfl | rfl
  · have hminus : '-' ∈ [] ++ digits n := by
      rw [h]
      exact List.mem_cons_self
    exact absurd (isDigit_of_mem_digits hminus) (by decide)
  · have hn := eq_zero_of_digits (List.cons.inj h).2
    exact absurd (hzero hn) (by decide)

theorem shown_signed (n : Int) : Shown .number (signed n) := by
  unfold signed
  split
  · have hpos : n.natAbs ≠ 0 := by omega
    exact shown_digits (.inr rfl) fun h => absurd h hpos
  · exact shown_digits (.inl rfl) fun _ => rfl

end Numeral

theorem Duration.shown_chars (d : Duration) : Shown .time d.chars := by
  have hminutes : IsSixtieth (Numeral.padded 2 (d.seconds.val.natAbs % 3600 / 60)) :=
    Numeral.isSixtieth_padded (by omega)
  have hseconds : IsSixtieth (Numeral.padded 2 (d.seconds.val.natAbs % 60)) :=
    Numeral.isSixtieth_padded (Nat.mod_lt _ (by decide))
  have hhours := Numeral.isPlain_digits (d.seconds.val.natAbs / 3600)
  have shown {sign} (hsign : IsSign sign) := Shown.time hsign hhours hminutes hseconds
  simp only [chars]
  split
  · simpa using shown (.inr rfl)
  · simpa using shown (.inl rfl)

namespace Decimal

open Numeral

/-- The last two digits stand after the point. -/
theorem positional_hundredths (n : Nat) :
    positional (digits n) (-2) =
      digits (n / 100) ++ ['.', (n / 10 % 10).digitChar, (n % 10).digitChar] := by
  have hneg : ¬ (0 : Int) ≤ -2 := by decide
  by_cases hten : n < 10
  · rw [digits_of_lt hten, Nat.div_eq_of_lt (by omega : n < 100), Nat.div_eq_of_lt hten,
      Nat.mod_eq_of_lt hten]
    rfl
  · have hlast := digits_of_le (Nat.not_lt.1 hten)
    by_cases hhundred : n < 100
    · rw [digits_of_lt (by omega : n / 10 < 10)] at hlast
      rw [hlast, Nat.div_eq_of_lt hhundred, Nat.mod_eq_of_lt (by omega : n / 10 < 10)]
      rfl
    · rw [digits_of_le (by omega : 10 ≤ n / 10), Nat.div_div_eq_div_mul] at hlast
      have hlead := (isPlain_digits (n / (10 * 10))).isRun.1
      have hlength : (-2 : Int).natAbs < (digits n).length := by
        have := List.length_pos_iff.2 hlead
        simp only [hlast, List.length_append, List.length_singleton]
        omega
      have hplaces : (digits n).length - (-2 : Int).natAbs = (digits (n / (10 * 10))).length := by
        simp [hlast]
      simp only [positional, if_neg hneg, if_pos hlength, hplaces]
      simp [hlast]

end Decimal

namespace Binary64

open Numeral

def signChars (negative : Bool) : List Char := if negative then ['-'] else []

theorem isSign_signChars (negative : Bool) : IsSign (signChars negative) := by
  cases negative
  · exact .inl rfl
  · exact .inr rfl

theorem spelled_finite (magnitude : Nat → List Char) (negative : Bool) (rank : Fin infiniteRank) :
    spelled magnitude (.finite negative rank) =
      String.ofList (signChars negative ++ magnitude rank) := by
  cases negative <;> rfl

/-- Of two places the last is dropped if it is zero; the other one stays. -/
theorem trimZeros_hundredths (cs : List Char) (n : Nat) :
    trimZeros (cs ++ ['.', (n / 10 % 10).digitChar, (n % 10).digitChar]) =
      cs ++ '.' :: places n := by
  have hpoint (k : Nat) : (k % 10).digitChar ≠ '.' := by
    intro h
    have hdigit := isDigit_digitChar_mod k
    rw [h] at hdigit
    exact absurd hdigit (by decide)
  by_cases hlast : n % 10 = 0
  · by_cases hfirst : n / 10 % 10 = 0
    · simp [trimZeros, places, hlast, hfirst]
    · simp [trimZeros, places, hlast, hfirst, hpoint]
  · simp [trimZeros, places, hlast, hpoint]

/-- Behind the point a whole double has nothing but zeros. -/
theorem fixed_of_dvd {rank : Fin infiniteRank} {n : Nat} (h : unitsOfRank rank = n * one)
    (negative : Bool) (places : Nat) :
    (finite negative rank).fixed places = String.ofList (signChars negative ++
      Decimal.positional (digits (n * tenTo places)) (-(places : Int))) := by
  have hone : 0 < one := by decide
  rw [fixed, spelled_finite, h, Nat.mul_right_comm, roundQuotient_mul_right _ hone]

theorem isWhole_finite_iff {negative : Bool} {rank : Fin infiniteRank} :
    (finite negative rank).isWhole = true ↔ one ∣ unitsOfRank rank := by
  rw [isWhole, beq_iff_eq, Nat.dvd_iff_mod_eq_zero]

theorem isWhole_iff {x : Binary64} : x.isWhole = true ↔ ∃ k : Int, x.units? = some (k * one) := by
  cases x with
  | nan s | infinite s => simp [isWhole, units?]
  | finite negative rank =>
    rw [isWhole_finite_iff]
    constructor
    · rintro ⟨n, hn⟩
      have hcast : ((one * n : Nat) : Int) = n * one := by rw [Int.natCast_mul, Int.mul_comm]
      refine ⟨if negative then -n else n, ?_⟩
      rw [units?, hn, hcast]
      cases negative
      · rfl
      · rw [if_pos rfl, if_pos rfl, Int.neg_mul]
    · rintro ⟨k, hk⟩
      have habs := congrArg Int.natAbs (Option.some.inj hk)
      rw [← signedUnits, natAbs_signedUnits, Int.natAbs_mul] at habs
      exact ⟨k.natAbs, by rw [habs, Nat.mul_comm, Int.natAbs_natCast]⟩

/-- A whole double is written as the integer that it is; both zeros are the integer 0. -/
theorem wholeText_eq_intText {x : Binary64} {k : Int} (h : x.units? = some (k * one)) :
    x.wholeText = intText k := by
  cases x with
  | nan s | infinite s => cases h
  | finite negative rank =>
    have hsigned : signedUnits negative rank = k * one := Option.some.inj h
    have hunits : unitsOfRank rank = k.natAbs * one := by
      rw [← natAbs_signedUnits negative, hsigned, Int.natAbs_mul, Int.natAbs_natCast]
    have hneg : k < 0 ↔ rank.val ≠ 0 ∧ negative = true := by
      have hone : (0 : Int) < one := by decide
      rw [← signedUnits_neg_iff, hsigned, ← Int.mul_lt_mul_right hone, Int.zero_mul]
    have hsign : (if rank.val = 0 then negative && false else negative) = decide (k < 0) := by
      by_cases hzero : rank.val = 0
      · simp [hneg, hzero]
      · simp [hneg, hzero]
    have hplaces (ds : List Char) : Decimal.positional ds (-((0 : Nat) : Int)) = ds := by
      simp [Decimal.positional]
    rw [wholeText, finite_add_zero, hsign, fixed_of_dvd hunits, hplaces, show tenTo 0 = 1 from rfl,
      Nat.mul_one, intText, signed]
    by_cases hk : k < 0
    · simp [signChars, hk]
    · simp [signChars, hk]

theorem shown_wholeText {x : Binary64} (h : x.isWhole = true) :
    Shown .number x.wholeText.toList := by
  obtain ⟨k, hk⟩ := isWhole_iff.1 h
  rw [wholeText_eq_intText hk, intText, String.toList_ofList]
  exact shown_signed k

theorem shownText_fraction {negative : Bool} {rank : Fin infiniteRank} {n : Nat}
    (h : (finite negative rank).isWhole ≠ true)
    (hn : roundQuotient (unitsOfRank rank * tenTo 2) one = n) :
    (finite negative rank).shownText.toList =
      signChars negative ++ digits (n / 100) ++ '.' :: places n := by
  have hfixed : (finite negative rank).fixed 2 = String.ofList (signChars negative ++
      Decimal.positional (digits n) (-2)) := by
    rw [← hn]
    exact spelled_finite _ negative rank
  rw [shownText, if_neg h, hfixed, Decimal.positional_hundredths, String.toList_ofList,
    String.toList_ofList, ← List.append_assoc, trimZeros_hundredths]

theorem shown_shownText {x : Binary64} (h : x.isFinite = true) :
    Shown .number x.shownText.toList := by
  by_cases hwhole : x.isWhole = true
  · rw [shownText, if_pos hwhole]
    exact shown_wholeText hwhole
  · cases x with
    | nan s | infinite s => cases h
    | finite negative rank =>
      rw [shownText_fraction hwhole rfl]
      exact Shown.places (isSign_signChars negative) (isPlain_digits _) (isPlaces_places _)

end Binary64

theorem Shown.chars {kind : Kind} {cs : List Char} (h : Shown kind cs) :
    ∀ c ∈ cs, c.isDigit = true ∨ c ∈ ['-', '.', ':'] := by
  have sign {cs} (h : IsSign cs) : ∀ c ∈ cs, c = '-' := by
    rcases h with rfl | rfl <;> simp
  have plain {ds} (h : IsPlain ds) : ∀ c ∈ ds, c.isDigit = true := h.isRun.2
  have sixtieth {ds} (h : IsSixtieth ds) : ∀ c ∈ ds, c.isDigit = true := by
    unfold IsSixtieth at h
    split at h
    · rename_i tens ones
      have htens : tens.isDigit = true := by
        simp only [Char.isDigit, ge_iff_le, Bool.and_eq_true, decide_eq_true_eq]
        exact ⟨h.1, UInt32.le_trans h.2.1 (by decide)⟩
      simp [htens, h.2.2]
    · exact h.elim
  intro c hc
  cases h with
  | whole hs hds _ => grind
  | tenths hs hds hd => grind
  | hundredths hs hds hd he _ => grind
  | time hs hh hm hsec => grind

theorem not_shown_minus_zero (kind : Kind) : ¬ Shown kind ['-', '0'] := by
  intro h
  generalize hcs : ['-', '0'] = cs at h
  have absent {c : Char} (hc : c ∈ cs) : c = '-' ∨ c = '0' := by
    rw [← hcs] at hc
    simpa using hc
  cases h with
  | whole hs hds hne => exact hne hcs.symm
  | tenths hs hds hd => exact absurd (absent (c := '.') (by simp)) (by decide)
  | hundredths hs hds hd he hne => exact absurd (absent (c := '.') (by simp)) (by decide)
  | time hs hh hm hsec => exact absurd (absent (c := ':') (by simp)) (by decide)

namespace Value

theorem shown_text {v : Value} (h : v.isFinite = true) : Shown v.kind v.text.toList := by
  cases v with
  | number n =>
    cases n with
    | integer a =>
      rw [text, Number.text, Numeral.intText, String.toList_ofList]
      exact Numeral.shown_signed a.val
    | real x => exact Binary64.shown_shownText h
  | time d =>
    rw [text, Duration.text, String.toList_ofList]
    exact d.shown_chars

/-- Every subexpression that has a value has a finite one, and no reading meets any other: refusing
them makes no difference. So an answer is a text of one of the forms, never an infinity, a NaN, a
negative zero or a number with an exponent. -/
theorem finite_and_shown (wanted : Option Kind) :
    (∀ e v, reducer.fold e = .ok v → v.isFinite = true) ∧
    (∀ ts refusal, (reducer.guard isFinite refusal).read ts = reducer.read ts) ∧
    (∀ ts v, ofTokens wanted ts = .ok v → v.isFinite = true) ∧
    ∀ text s, answer wanted text = .ok s →
      ∃ v, ofText wanted text = .ok v ∧ v.text = s ∧ Shown v.kind s.toList ∧ s ≠ "-0" ∧
        ∀ c ∈ s.toList, c.isDigit = true ∨ c ∈ ['-', '.', ':'] := by
  refine ⟨fun e v => isFinite_of_fold, fun ts refusal => read_guard refusal ts,
    fun ts v => isFinite_of_ofTokens, fun text s hs => ?_⟩
  obtain ⟨v, hv, rfl⟩ := map_eq_ok_iff.1 hs
  obtain ⟨ts, -, hts⟩ := bind_eq_ok_iff.1 hv
  have hshown := shown_text (isFinite_of_ofTokens hts)
  refine ⟨v, hv, rfl, hshown, fun h => ?_, hshown.chars⟩
  rw [h] at hshown
  exact not_shown_minus_zero v.kind hshown

theorem finite_and_shown_third :
    answer none "1/3" = .ok "0.33" ∧
    ∃ v, ofText none "1/3" = .ok v ∧ v.isFinite = true ∧ Shown v.kind "0.33".toList := by
  have hs : answer none "1/3" = .ok "0.33" := by
    have hopt : (answer none "1/3").toOption = some "0.33" := by decide +kernel
    cases hx : answer none "1/3" <;> rw [hx] at hopt <;> cases hopt
    rfl
  obtain ⟨-, -, hfinite, hshown⟩ := finite_and_shown none
  obtain ⟨v, hv, -, hshape, -⟩ := hshown "1/3" "0.33" hs
  obtain ⟨ts, -, hts⟩ := bind_eq_ok_iff.1 hv
  exact ⟨hs, v, hv, hfinite ts v hts, hshape⟩

end Value

end ClockCalc

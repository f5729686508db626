import ClockCalc.Proofs.FullText

/-! Literals that are too large. Both readings of a literal see the same value wherever the first
sees one, and the first gives up only on literals whose value is out of range: integers and seconds
from `2 ^ 63` on, and decimals that are rounded to infinity. Of these the second reading gives up on
the spans of time alone. An integer that fits no word is a double for it, and a decimal may be
infinite. -/

namespace ClockCalc

open Token (IsRun Spells)

theorem Word.ofNat?_eq_none_iff {n : Nat} : ofInt? n = none ↔ 0x8000000000000000 ≤ n := by
  rw [ofInt?_eq_none_iff]
  omega

namespace Binary64

/-- Half way from the greatest double to `2 ^ 1024`. Decimals are rounded to infinity from here
on. -/
def limit : Nat := (2 ^ 54 - 1) * 2 ^ 970

theorem mul_two_pow_le_iff (a c d m k : Nat) :
    a * (d * 2 ^ (m + (k + 1))) ≤ 2 * (c * (1 <<< k)) ↔ a * 2 ^ m * d ≤ c := by
  have hleft : a * (d * 2 ^ (m + (k + 1))) = a * 2 ^ m * d * 2 ^ (k + 1) := by
    rw [Nat.pow_add]
    ac_rfl
  have hright : 2 * (c * (1 <<< k)) = c * 2 ^ (k + 1) := by
    rw [Nat.one_shiftLeft, Nat.pow_succ]
    ac_rfl
  rw [hleft, hright, Nat.mul_le_mul_right_iff (Nat.two_pow_pos _)]

theorem infiniteRank_le_nearestRank_one_iff {c d : Nat} (hd : 0 < d) :
    infiniteRank ≤ nearestRank (c * one) d ↔ limit * d ≤ c := by
  have hrank := le_nearestRank_iff (n := c * one) hd (970 + (1074 + 1))
  rwa [mul_two_pow_le_iff, show 4 * ranksPerPower - 1 = 2 ^ 54 - 1 by decide] at hrank

theorem isFinite_ofRank_iff {negative : Bool} {rank : Nat} :
    (ofRank negative rank).isFinite = true ↔ rank < infiniteRank := by
  unfold ofRank
  split
  · exact iff_of_true rfl ‹_›
  · exact iff_of_false Bool.false_ne_true ‹_›

/-- A decimal with digits behind its point is too large for a double exactly from the limit on. -/
theorem isFinite_ofDecimal_iff (negative : Bool) (c places : Nat) :
    (ofDecimal negative ⟨c, -(places : Int)⟩).isFinite = true ↔
      c < limit * Numeral.tenTo places := by
  have hnum : (-(places : Int)).toNat = 0 := by omega
  have hden : (-(-(places : Int))).toNat = places := by omega
  have hlimit := infiniteRank_le_nearestRank_one_iff (c := c) (Numeral.tenTo_pos places)
  rw [ofDecimal_eq, isFinite_ofRank_iff, Decimal.rank, hnum, hden,
    show Numeral.tenTo 0 = 1 from rfl, Nat.mul_one]
  exact Nat.not_le.symm.trans ((not_congr hlimit).trans Nat.not_le)

theorem read?_point {ds fs : List Char} (hds : IsRun ds) (hfs : IsRun fs) :
    read? (ds ++ '.' :: fs) =
      some (ofDecimal false ⟨Numeral.value (ds ++ fs), -(fs.length : Int)⟩) :=
  read?_of_denotes (.point hds hfs) false

end Binary64

/-- The literals whose values are out of range; those of decimals have no finite double nearest to
them. -/
inductive Oversized : LiteralForm → List Char → Prop
  | integer {ds} : IsRun ds → 0x8000000000000000 ≤ Numeral.value ds → Oversized .integer ds
  | decimal {ds fs} : IsRun ds → IsRun fs →
      Binary64.limit * Numeral.tenTo fs.length ≤ Numeral.value (ds ++ fs) →
      Oversized .decimal (ds ++ '.' :: fs)
  | time {cs n} : Duration.Measures cs n → 0x8000000000000000 ≤ n → Oversized .time cs

namespace Duration

variable {cs : List Char} {n : Nat}

theorem exists_measures_of_spells (h : Spells (.literal .time) cs) : ∃ n, Measures cs n := by
  cases h with
  | minutes hm hs => exact ⟨_, .minutes hm hs⟩
  | hours hh hm hs => exact ⟨_, .hours hh hm hs⟩

theorem Measures.colon_mem (h : Measures cs n) : ':' ∈ cs := by
  cases h with
  | minutes hm hs => simp
  | hours hh hm hs => simp

end Duration

theorem Machine.operand_eq_error_iff {text : String} (fault : RunFault) :
    operand text = .error fault ↔
      fault = .malformed text ∧ Value.read? text.toList = none := by
  cases hread : Value.read? text.toList with
  | some v => simp [operand, hread]
  | none => simp [operand, hread, eq_comm]

namespace Value

variable {cs ds fs : List Char} {form : LiteralForm} {n : Nat}

theorem readForm?_integer_eq_none_iff (hds : IsRun ds) :
    readForm? .integer ds = none ↔ 0x8000000000000000 ≤ Numeral.value ds := by
  rw [readForm?_of_isRun hds, Option.map_eq_none_iff, Word.ofNat?_eq_none_iff]

theorem readForm?_time_eq_none_iff (h : Duration.Measures cs n) :
    readForm? .time cs = none ↔ 0x8000000000000000 ≤ n := by
  rw [h.readForm?, Option.map_eq_none_iff, Word.ofNat?_eq_none_iff]

theorem readForm?_decimal_eq_none_iff (hds : IsRun ds) (hfs : IsRun fs) :
    readForm? .decimal (ds ++ '.' :: fs) = none ↔
      Binary64.limit * Numeral.tenTo fs.length ≤ Numeral.value (ds ++ fs) := by
  rw [readForm?, Binary64.read?_point hds hfs, Option.map_eq_none_iff, ← Nat.not_lt,
    ← Binary64.isFinite_ofDecimal_iff false, Option.filter_eq_none_iff]
  simp

theorem readForm?_of_oversized (h : Oversized form cs) : readForm? form cs = none := by
  cases h with
  | integer hds hle => exact (readForm?_integer_eq_none_iff hds).2 hle
  | decimal hds hfs hle => exact (readForm?_decimal_eq_none_iff hds hfs).2 hle
  | time hn hle => exact (readForm?_time_eq_none_iff hn).2 hle

/-- Of the literals in their written forms the oversized alone have no value. -/
theorem readForm?_eq_none_iff (h : Spells (.literal form) cs) :
    readForm? form cs = none ↔ Oversized form cs := by
  refine ⟨fun hnone => ?_, readForm?_of_oversized⟩
  cases form with
  | integer =>
    cases h with
    | integer hds => exact .integer hds ((readForm?_integer_eq_none_iff hds).1 hnone)
  | decimal =>
    cases h with
    | decimal hds hfs => exact .decimal hds hfs ((readForm?_decimal_eq_none_iff hds hfs).1 hnone)
  | time =>
    obtain ⟨n, hn⟩ := Duration.exists_measures_of_spells h
    exact .time hn ((readForm?_time_eq_none_iff hn).1 hnone)

/-- By its text alone an integer that fits no word is read as a double. -/
theorem read?_integer (hds : IsRun ds) :
    read? ds = some (.number ((Word.ofInt? (Numeral.value ds)).elim
      (.real (.ofDecimal false ⟨Numeral.value ds, 0⟩)) .integer)) := by
  have hcolon : ':' ∉ ds := hds.not_mem rfl
  have hpoint : '.' ∉ ds := hds.not_mem rfl
  have hdouble : Binary64.read? ds = some (.ofDecimal false ⟨Numeral.value ds, 0⟩) :=
    Binary64.read?_of_denotes (.plain hds) false
  rw [read?, if_neg hcolon, Number.read?, if_neg hpoint, Numeral.readWord?_of_isRun hds, hdouble]
  cases Word.ofInt? (Numeral.value ds) <;> rfl

/-- By its text alone a decimal is read as a double, be it infinite. -/
theorem read?_decimal (hds : IsRun ds) (hfs : IsRun fs) :
    read? (ds ++ '.' :: fs) =
      some (.number (.real (.ofDecimal false ⟨Numeral.value (ds ++ fs), -(fs.length : Int)⟩))) := by
  have hcolon : ':' ∉ ds ++ '.' :: fs := by simp [hds.not_mem, hfs.not_mem]
  have hpoint : '.' ∈ ds ++ '.' :: fs := by simp
  rw [read?, if_neg hcolon, Number.read?_of_point hpoint, Binary64.read?_point hds hfs]
  rfl

theorem read?_time (h : Duration.Measures cs n) : read? cs = readForm? .time cs :=
  if_pos h.colon_mem

/-- By their texts alone only spans of time are too large. -/
theorem read?_eq_none_iff (h : Spells (.literal form) cs) :
    read? cs = none ↔ form = .time ∧ Oversized form cs := by
  cases form with
  | integer =>
    cases h with
    | integer hds => simp [read?_integer hds]
  | decimal =>
    cases h with
    | decimal hds hfs => simp [read?_decimal hds hfs]
  | time =>
    obtain ⟨n, hn⟩ := Duration.exists_measures_of_spells h
    rw [read?_time hn, readForm?_eq_none_iff h, eq_self_iff_true, true_and]

variable {t : Token}

theorem ofLiteral_eq_error_iff (hform : t.kind = .literal form) (fault : GrammarFault) :
    ofLiteral t = .error fault ↔
      fault = .tooLarge t.lexeme t.position ∧ readForm? form t.lexeme.toList = none := by
  cases hread : readForm? form t.lexeme.toList with
  | some v => simp [ofLiteral, hform, hread]
  | none => simp [ofLiteral, hform, hread, eq_comm]

/-- Both readings of a literal agree, wherever the scanner found it. The first fails for the
oversized ones alone, which it names with their places; the second fails for those of them that are
spans of time. -/
theorem literals_read_alike {position : Nat} {cs : List Char} {form : LiteralForm}
    (ht : t ∈ (Token.scanFrom position 0 cs).tokens) (hform : t.kind = .literal form) :
    (∀ v, ofLiteral t = .ok v → Machine.operand t.lexeme = .ok v) ∧
    (∀ fault, ofLiteral t = .error fault ↔
      fault = .tooLarge t.lexeme t.position ∧ Oversized form t.lexeme.toList) ∧
    ∀ fault, Machine.operand t.lexeme = .error fault ↔
      fault = .malformed t.lexeme ∧ form = .time ∧ Oversized form t.lexeme.toList := by
  have hspells := Token.spells_of_mem_scanFrom ht
  have hliteral : Spells (.literal form) t.lexeme.toList := hform ▸ hspells
  refine ⟨fun v hv => ?_, fun fault => ?_, fun fault => ?_⟩
  · obtain ⟨w, hw, -, hsame⟩ := Machine.exists_operand_of_ofLiteral hv
    rw [hw, hsame hspells.hasPoint]
  · rw [ofLiteral_eq_error_iff hform, readForm?_eq_none_iff hliteral]
  · rw [Machine.operand_eq_error_iff, read?_eq_none_iff hliteral]

/-- The first integer that fits no word is refused as a literal and is a double as an operand. -/
theorem literals_read_alike_past_words :
    let t : Token := ⟨.literal .integer, "9223372036854775808", 4⟩
    t ∈ (Token.scanFrom 0 0 "1 - 9223372036854775808".toList).tokens ∧
    Machine.operand t.lexeme = .ok (.number (.real (.ofInt 0x8000000000000000))) ∧
    (∀ v, ofLiteral t = .ok v → Machine.operand t.lexeme = .ok v) ∧
    (∀ fault, ofLiteral t = .error fault ↔
      fault = .tooLarge t.lexeme t.position ∧ Oversized .integer t.lexeme.toList) ∧
    ∀ fault, Machine.operand t.lexeme = .error fault ↔
      fault = .malformed t.lexeme ∧ LiteralForm.integer = .time ∧
        Oversized .integer t.lexeme.toList := by
  have ht : ⟨.literal .integer, "9223372036854775808", 4⟩ ∈
      (Token.scanFrom 0 0 "1 - 9223372036854775808".toList).tokens := by decide
  exact ⟨ht, by decide +kernel, literals_read_alike ht rfl⟩

end Value

end ClockCalc

import ClockCalc.Proofs.Decimals
import ClockCalc.Proofs.Shown
import ClockCalc.Proofs.Spans

/-! Numbers written in full. Digits with a point put in its place are read as the decimal that they
are, so a double is read back from its shortest digits, and a whole one from its exact digits too.
The point tells doubles from integers. Only a whole double that is written without it, and that a
word can hold, comes back as an integer, of the same value. -/

namespace ClockCalc

open Token (IsRun)

namespace Numeral

variable {ds : List Char}

theorem toLower_of_isDigit {c : Char} (h : c.isDigit = true) : c.toLower = c := by
  have hle : c.toNat ≤ '9'.toNat := (Char.isDigit_iff_toNat.1 h).2
  refine dif_neg fun hupper => ?_
  exact absurd (Nat.le_trans (UInt32.le_iff_toNat_le.1 hupper.1) hle) (by decide)

theorem isRun_zeros_append (k : Nat) (h : IsRun ds) : IsRun (List.replicate k '0' ++ ds) :=
  ⟨List.append_ne_nil_of_right_ne_nil _ h.1,
    List.forall_mem_append.2 ⟨fun _ => isDigit_of_mem_zeros, h.2⟩⟩

theorem isRun_append_zeros (h : IsRun ds) (k : Nat) : IsRun (ds ++ List.replicate k '0') :=
  ⟨List.append_ne_nil_of_left_ne_nil h.1 _,
    List.forall_mem_append.2 ⟨h.2, fun _ => isDigit_of_mem_zeros⟩⟩

theorem readWord?_signed (k : Int) : readWord? (signed k) = Word.ofInt? k := by
  unfold signed
  split
  · have hk : -(k.natAbs : Int) = k := by omega
    rw [readWord?, readSigned?, read?_of_isRun (isRun_digits _), value_digits]
    exact congrArg Word.ofInt? hk
  · have hk : (k.natAbs : Int) = k := by omega
    rw [readWord?_of_isRun (isRun_digits _), value_digits, hk]

theorem point_not_mem_signed (k : Int) : '.' ∉ signed k := by
  have hdigits : '.' ∉ digits k.natAbs := fun h => absurd (isDigit_of_mem_digits h) (by decide)
  unfold signed
  split
  · simp [hdigits]
  · exact hdigits

end Numeral

namespace Decimal

open Numeral

/-- Runs of digits, perhaps with a point between them, and the decimals that they are. -/
inductive Denotes : List Char → Decimal → Prop
  | plain {ds} : IsRun ds → Denotes ds ⟨value ds, 0⟩
  | point {ds fs} : IsRun ds → IsRun fs →
      Denotes (ds ++ '.' :: fs) ⟨value (ds ++ fs), -(fs.length : Int)⟩

variable {cs ds : List Char} {d : Decimal}

theorem denotes_take_drop (h : IsRun ds) {k : Nat} (hpos : 0 < k) (hlt : k < ds.length) :
    Denotes (ds.take k ++ '.' :: ds.drop k) ⟨value ds, -((ds.length - k : Nat) : Int)⟩ := by
  have hbefore : IsRun (ds.take k) := by
    refine ⟨List.ne_nil_of_length_pos ?_, fun c hc => h.2 c (List.mem_of_mem_take hc)⟩
    rw [List.length_take]
    omega
  have hbehind : IsRun (ds.drop k) := by
    refine ⟨List.ne_nil_of_length_pos ?_, fun c hc => h.2 c (List.mem_of_mem_drop hc)⟩
    rw [List.length_drop]
    omega
  have hd := Denotes.point hbefore hbehind
  rwa [List.take_append_drop, List.length_drop] at hd

theorem denotes_below_one (h : IsRun ds) (k : Nat) :
    Denotes ('0' :: '.' :: (List.replicate k '0' ++ ds))
      ⟨value ds, -((k + ds.length : Nat) : Int)⟩ := by
  have hzero : IsRun ['0'] := isRun_digits 0
  -- the zero before the point is one more of those before the digits
  have hvalue : value (['0'] ++ (List.replicate k '0' ++ ds)) = value ds :=
    value_zeros_append (k + 1) ds
  have hd := Denotes.point hzero (isRun_zeros_append k h)
  rwa [hvalue, List.length_append, List.length_replicate] at hd

/-- Putting the point in its place does not change the decimal; a positive exponent is used up by
zeros. -/
theorem denotes_positional (h : IsRun ds) (e : Int) :
    Denotes (positional ds e) ⟨value ds * tenTo e.toNat, e - e.toNat⟩ := by
  by_cases hwhole : 0 ≤ e
  · have hzero : e - e.toNat = 0 := by omega
    rw [positional, if_pos hwhole, hzero, ← value_append_zeros]
    exact .plain (isRun_append_zeros h _)
  · have hnum : e.toNat = 0 := by omega
    rw [hnum, show tenTo 0 = 1 from rfl, Nat.mul_one]
    simp only [positional, if_neg hwhole]
    split
    · have hplaces : e - (0 : Nat) = -((ds.length - (ds.length - e.natAbs) : Nat) : Int) := by omega
      rw [hplaces]
      exact denotes_take_drop h (by omega) (by omega)
    · have hplaces : e - (0 : Nat) = -((e.natAbs - ds.length + ds.length : Nat) : Int) := by omega
      rw [hplaces]
      exact denotes_below_one h _

theorem Denotes.point_mem_iff (h : Denotes cs d) : '.' ∈ cs ↔ d.exponent < 0 := by
  cases h with
  | plain hds =>
    have habsent : '.' ∉ cs := fun hmem => absurd (hds.2 _ hmem) (by decide)
    exact iff_of_false habsent (Int.lt_irrefl 0)
  | point hds hfs =>
    have hpos := List.length_pos_iff.2 hfs.1
    refine iff_of_true (by simp) ?_
    show -(_ : Int) < 0
    omega

theorem Denotes.head_isDigit (h : Denotes cs d) : ∃ c rest, cs = c :: rest ∧ c.isDigit = true := by
  cases h with
  | plain hds =>
    obtain ⟨c, rest, hcs⟩ := List.exists_cons_of_ne_nil hds.1
    exact ⟨c, rest, hcs, hds.2 c (by simp [hcs])⟩
  | @point ds fs hds hfs =>
    obtain ⟨c, rest, rfl⟩ := List.exists_cons_of_ne_nil hds.1
    exact ⟨c, rest ++ '.' :: fs, rfl, hds.2 c (by simp)⟩

theorem Denotes.readMagnitude? (h : Denotes cs d) : Binary64.readMagnitude? cs = some d := by
  cases h with
  | plain hds =>
    simp [Binary64.readMagnitude?, Binary64.readExponent?, hds.takeWhile_self, hds.dropWhile_self,
      hds.1]
  | @point ds fs hds hfs =>
    have hpoint : Char.isDigit '.' = false := by decide
    have hbefore : (ds ++ '.' :: fs).takeWhile Char.isDigit = ds := hds.takeWhile_append hpoint
    have hrest : (ds ++ '.' :: fs).dropWhile Char.isDigit = '.' :: fs := hds.dropWhile_append hpoint
    simp [Binary64.readMagnitude?, Binary64.readExponent?, hbefore, hrest, hfs.takeWhile_self,
      hfs.dropWhile_self, hds.1]

end Decimal

namespace Binary64

open Numeral
open Decimal (Denotes)

variable {cs : List Char} {d : Decimal}

/-- What begins with a digit is no name. -/
theorem readUnsigned?_of_isDigit {c : Char} (hc : c.isDigit = true) (negative : Bool) :
    readUnsigned? negative (c :: cs) = (readMagnitude? (c :: cs)).map (ofDecimal negative) := by
  have hhead : ∀ name ∈ "nan".toList :: infinityNames, name.head?.any Char.isDigit = false := by
    decide
  have hname : ∀ name ∈ "nan".toList :: infinityNames, (c :: cs).map Char.toLower ≠ name := by
    intro name hmem heq
    have hnot := hhead name hmem
    rw [← heq] at hnot
    simp [toLower_of_isDigit hc, hc] at hnot
  obtain ⟨hnan, hinfinite⟩ := List.forall_mem_cons.1 hname
  have hnot : (c :: cs).map Char.toLower ∉ infinityNames := fun h => hinfinite _ h rfl
  simp only [readUnsigned?, if_neg hnot, if_neg hnan]

theorem read?_of_denotes (h : Denotes cs d) (negative : Bool) :
    read? (signChars negative ++ cs) = some (ofDecimal negative d) := by
  have hmagnitude := h.readMagnitude?
  obtain ⟨c, rest, rfl, hc⟩ := h.head_isDigit
  have hunsigned : readUnsigned? negative (c :: rest) = some (ofDecimal negative d) := by
    rw [readUnsigned?_of_isDigit hc, hmagnitude, Option.map_some]
  cases negative with
  | true => exact hunsigned
  | false =>
    have hminus : c ≠ '-' := by
      rintro rfl
      exact absurd hc (by decide)
    have hplus : c ≠ '+' := by
      rintro rfl
      exact absurd hc (by decide)
    rw [← hunsigned]
    simp [signChars, read?, hminus, hplus]

/-- Digits and an exponent are read as the decimal that they are, wherever its point is put. -/
theorem read?_positional (negative : Bool) (c : Nat) (e : Int) :
    read? (signChars negative ++ Decimal.positional (digits c) e) =
      some (ofDecimal negative ⟨c, e⟩) := by
  have hd := Decimal.denotes_positional (isRun_digits c) e
  rw [value_digits] at hd
  rw [read?_of_denotes hd, ofDecimal_eq, ofDecimal_eq, Decimal.rank_shift]

theorem point_mem_positional (negative : Bool) (c : Nat) (e : Int) :
    '.' ∈ signChars negative ++ Decimal.positional (digits c) e ↔ e < 0 := by
  have hd := Decimal.denotes_positional (isRun_digits c) e
  have hsign : '.' ∉ signChars negative := by cases negative <;> decide
  rw [List.mem_append, or_iff_right hsign, hd.point_mem_iff]
  show e - e.toNat < 0 ↔ e < 0
  omega

/-- A double is read back from its shortest digits. -/
theorem read?_plain {x : Binary64} (h : x.isFinite = true) : read? x.plain.toList = some x := by
  cases x with
  | nan s | infinite s => cases h
  | finite negative rank =>
    rw [plain, spelled_finite, String.toList_ofList]
    split
    · rename_i hzero
      obtain rfl : rank = ⟨0, by decide⟩ := Fin.ext hzero
      exact read?_positional negative 0 0
    · rw [read?_positional, ofDecimal_shortest]

/-- A double with a fraction shows it. -/
theorem point_mem_plain {x : Binary64} (hfinite : x.isFinite = true) (h : ¬ x.isWhole = true) :
    '.' ∈ x.plain.toList := by
  cases x with
  | nan s | infinite s => cases hfinite
  | finite negative rank =>
    have hfraction : ¬ one ∣ unitsOfRank rank := mt isWhole_finite_iff.2 h
    have hrank : rank.val ≠ 0 := by
      intro hzero
      rw [unitsOfRank_eq_zero_iff.2 hzero] at hfraction
      exact hfraction (Nat.dvd_zero one)
    rw [plain, spelled_finite, String.toList_ofList, if_neg hrank]
    exact (point_mem_positional negative _ _).2 (exponent_shortest_neg hfraction)

/-- A whole double is read back from its exact digits, with any number of zeros behind the point. -/
theorem read?_fixed {x : Binary64} (h : x.isWhole = true) (places : Nat) :
    read? (x.fixed places).toList = some x := by
  cases x with
  | nan s | infinite s => cases h
  | finite negative rank =>
    obtain ⟨n, hn⟩ := isWhole_finite_iff.1 h
    rw [Nat.mul_comm] at hn
    rw [fixed_of_dvd hn, String.toList_ofList, read?_positional, ofDecimal_eq, rank_of_units hn,
      ofRank, dif_pos rank.isLt]

/-- A whole double has a point only if there are places behind it. -/
theorem point_mem_fixed {x : Binary64} (h : x.isWhole = true) {places : Nat} (hp : 0 < places) :
    '.' ∈ (x.fixed places).toList := by
  cases x with
  | nan s | infinite s => cases h
  | finite negative rank =>
    obtain ⟨n, hn⟩ := isWhole_finite_iff.1 h
    rw [Nat.mul_comm] at hn
    rw [fixed_of_dvd hn, String.toList_ofList, point_mem_positional]
    omega

theorem add_zero_of_units {x : Binary64} {k : Int} (h : x.units? = some (k * one)) (hk : k ≠ 0) :
    x + zero false = x := by
  cases x with
  | nan s | infinite s => cases h
  | finite negative rank =>
    have hsigned : signedUnits negative rank = k * one := Option.some.inj h
    have hone : (one : Int) ≠ 0 := by decide
    have hrank : rank.val ≠ 0 := fun hzero =>
      Int.mul_ne_zero hk hone (hsigned.symm.trans (signedUnits_eq_zero_iff.2 hzero))
    rw [finite_add_zero, if_neg hrank]

theorem read?_wholeText {x : Binary64} {k : Int} (h : x.units? = some (k * one)) (hk : k ≠ 0) :
    read? x.wholeText.toList = some x := by
  rw [wholeText, add_zero_of_units h hk]
  exact read?_fixed (isWhole_iff.2 ⟨k, h⟩) 0

end Binary64

namespace Number

open Numeral (intText)

/-- The exact value in units. -/
def units? : Number → Option Int
  | integer n => some (n.val * Binary64.one)
  | real x => x.units?

/-- The integers, and the whole doubles in the range of words. -/
def InWords : Number → Prop
  | integer _ => True
  | real x => ∃ k : Int, x.units? = some (k * Binary64.one) ∧ Word.Holds k

theorem read?_of_point {cs : List Char} (h : '.' ∈ cs) :
    read? cs = (Binary64.read? cs).map real := if_pos h

/-- An integer that fits no word is read as a double. -/
theorem read?_intText (k : Int) :
    read? (intText k).toList =
      ((Word.ofInt? k).map integer).or ((Binary64.read? (intText k).toList).map real) := by
  rw [intText, String.toList_ofList, read?, if_neg (Numeral.point_not_mem_signed k),
    Numeral.readWord?_signed]
  cases Word.ofInt? k with
  | none => rfl
  | some a => rfl

theorem read?_integer (a : Word) (trimmed : Bool) :
    read? ((integer a).fullText trimmed).toList = some (integer a) := by
  rw [fullText, read?_intText, Word.ofInt?_val]
  rfl

variable {x : Binary64}

theorem read?_fraction (hfinite : x.isFinite = true) (h : ¬ x.isWhole = true) (trimmed : Bool) :
    read? ((real x).fullText trimmed).toList = some (real x) := by
  rw [fullText, if_neg h, read?_of_point (Binary64.point_mem_plain hfinite h),
    Binary64.read?_plain hfinite, Option.map_some]

theorem read?_whole (h : x.isWhole = true) :
    read? ((real x).fullText false).toList = some (real x) := by
  have hpoint := Binary64.point_mem_fixed h Nat.one_pos
  rw [fullText, if_pos h, if_neg Bool.false_ne_true, read?_of_point hpoint, Binary64.read?_fixed h,
    Option.map_some]

/-- Without a point a whole double comes back as an integer if a word can hold it. -/
theorem read?_whole_trimmed {k : Int} (h : x.units? = some (k * Binary64.one)) :
    read? ((real x).fullText true).toList = some ((Word.ofInt? k).elim (real x) integer) := by
  have htext := Binary64.wholeText_eq_intText h
  rw [fullText, if_pos (Binary64.isWhole_iff.2 ⟨k, h⟩), if_pos rfl, htext, read?_intText]
  cases hword : Word.ofInt? k with
  | some a => rfl
  | none =>
    -- a zero fits a word, so the sign that it loses is not missed here
    have hk : k ≠ 0 := by
      rintro rfl
      exact absurd hword (by decide)
    rw [← htext, Binary64.read?_wholeText h hk]
    rfl

theorem inWords_whole {k : Int} (h : x.units? = some (k * Binary64.one)) :
    (real x).InWords ↔ Word.Holds k := by
  constructor
  · rintro ⟨j, hj, hholds⟩
    have hone : (Binary64.one : Int) ≠ 0 := by decide
    obtain rfl : j = k := Int.eq_of_mul_eq_mul_right hone (Option.some.inj (hj.symm.trans h))
    exact hholds
  · exact fun hholds => ⟨k, h, hholds⟩

/-- Every finite number is read back from its full text, a zero with its sign. If whole doubles are
trimmed the value is still the same, and so is the number, but for the whole doubles in the range of
words: they come back as integers. -/
theorem full_text_reads_back (n : Number) (h : n.isFinite = true) :
    read? (n.fullText false).toList = some n ∧
    ∃ m, read? (n.fullText true).toList = some m ∧ m.units? = n.units? ∧
      ((∃ a, m = integer a) ↔ n.InWords) ∧ (¬ n.InWords → m = n) := by
  cases n with
  | integer a =>
    exact ⟨read?_integer a false, _, read?_integer a true, rfl, iff_of_true ⟨a, rfl⟩ trivial,
      fun _ => rfl⟩
  | real x =>
    by_cases hwhole : x.isWhole = true
    · obtain ⟨k, hk⟩ := Binary64.isWhole_iff.1 hwhole
      refine ⟨read?_whole hwhole, _, read?_whole_trimmed hk, ?_⟩
      rw [inWords_whole hk]
      by_cases hholds : Word.Holds k
      · obtain ⟨a, ha, hval⟩ := Word.exists_of_holds hholds
        have hunits : (integer a).units? = (real x).units? := by rw [units?, units?, hk, hval]
        rw [ha]
        exact ⟨hunits, iff_of_true ⟨a, rfl⟩ hholds, fun hnot => absurd hholds hnot⟩
      · rw [Word.ofInt?_of_not_holds hholds]
        exact ⟨rfl, iff_of_false (by simp) hholds, fun _ => rfl⟩
    · have hfraction : ¬ (real x).InWords := fun ⟨k, hk, _⟩ =>
        hwhole (Binary64.isWhole_iff.2 ⟨k, hk⟩)
      exact ⟨read?_fraction h hwhole false, _, read?_fraction h hwhole true, rfl,
        iff_of_false (by simp) hfraction, fun _ => rfl⟩

/-- The negative zero keeps its sign, and without a point it is the integer 0. -/
theorem negative_zero_reads_back :
    (real (.zero true)).fullText false = "-0.0" ∧ (real (.zero true)).fullText true = "0" ∧
    read? "-0.0".toList = some (real (.zero true)) ∧
    ∃ m, read? "0".toList = some m ∧ m.units? = (real (.zero true)).units? ∧
      ((∃ a, m = integer a) ↔ (real (.zero true)).InWords) ∧
      (¬ (real (.zero true)).InWords → m = real (.zero true)) :=
  ⟨by rfl, by rfl, full_text_reads_back (real (.zero true)) rfl⟩

-- the first whole double past the words stays one
example : (real (.ofInt 0x8000000000000000)).fullText true = "9223372036854775808" ∧
    read? "9223372036854775808".toList = some (real (.ofInt 0x8000000000000000)) := by
  decide +kernel

end Number

end ClockCalc

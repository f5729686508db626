import ClockCalc.Proofs.Amounts
import ClockCalc.Proofs.Literals
import ClockCalc.Proofs.Numerals
import Mathlib.Data.List.Basic

/-! Spans of time in writing. A text is read as a span exactly if it is two or three runs of digits
with colons between them, perhaps behind a `-`, and comes to less than `2 ^ 63` seconds without the
sign. The text of a span is of this form, so it is read back; but the least span comes to `2 ^ 63`
seconds, and its text is refused. -/

namespace ClockCalc

open Token (IsRun)

namespace Numeral

theorem isRun_digits (n : Nat) : IsRun (digits n) :=
  ⟨List.ne_nil_of_length_pos Nat.length_toDigits_pos, fun _ => isDigit_of_mem_digits⟩

theorem isRun_padded (width n : Nat) : IsRun (padded width n) :=
  ⟨List.append_ne_nil_of_right_ne_nil _ (isRun_digits n).1, fun _ => isDigit_of_mem_padded⟩

end Numeral

namespace Duration

open Numeral (value digits padded isRun_digits isRun_padded value_digits value_padded)

/-- Runs of digits, and the seconds that they come to. -/
inductive Measures : List Char → Nat → Prop
  | minutes {m s} : IsRun m → IsRun s → Measures (m ++ ':' :: s) (value m * 60 + value s)
  | hours {h m s} : IsRun h → IsRun m → IsRun s →
      Measures (h ++ ':' :: (m ++ ':' :: s)) (value h * 3600 + value m * 60 + value s)

/-- A sign, if there is one, and the seconds behind it. -/
inductive Denotes : List Char → Int → Prop
  | plain {cs n} : Measures cs n → Denotes cs n
  | negated {cs n} : Measures cs n → Denotes ('-' :: cs) (-n)

variable {cs : List Char} {n : Nat} {d : Duration}

theorem readMagnitude?_of_measures (h : Measures cs n) :
    readMagnitude? cs = (Word.ofInt? n).map mk := by
  cases h with
  | minutes hm hs =>
    rw [readMagnitude?_minutes hm hs]
    rfl
  | hours hh hm hs =>
    rw [readMagnitude?_hours hh hm hs]
    rfl

theorem isRun_of_readPart? {a : Word} (h : readPart? cs = some a) : IsRun cs := by
  obtain ⟨n, hn, -⟩ := Option.bind_eq_some_iff.1 h
  unfold Numeral.read? at hn
  split at hn
  · rename_i hrun
    exact ⟨hrun.1, List.all_eq_true.1 hrun.2⟩
  · cases hn

/-- All parts can be read if the list of them can. -/
theorem readPart?_of_mapM {pieces : List (List Char)} {words : List Word}
    (h : pieces.mapM readPart? = some words) :
    pieces.length = words.length ∧ ∀ piece ∈ pieces, IsRun piece := by
  induction pieces generalizing words with
  | nil =>
    cases h
    exact ⟨rfl, by simp⟩
  | cons piece pieces ih =>
    simp only [List.mapM_cons, Option.bind_eq_bind, Option.bind_eq_some_iff, Option.pure_def,
      Option.some.injEq] at h
    obtain ⟨word, hword, words, hwords, rfl⟩ := h
    obtain ⟨hlength, hruns⟩ := ih hwords
    exact ⟨congrArg (· + 1) hlength, List.forall_mem_cons.2 ⟨isRun_of_readPart? hword, hruns⟩⟩

/-- What is read has two or three parts, and each of them is a run. -/
theorem exists_measures_of_readMagnitude? (hread : readMagnitude? cs = some d) :
    ∃ n, Measures cs n := by
  have hcs : [':'].intercalate (cs.splitOn ':') = cs := List.intercalate_splitOn ':'
  unfold readMagnitude? at hread
  split at hread
  · rename_i minutes seconds hparts
    obtain ⟨hlength, hruns⟩ := readPart?_of_mapM hparts
    obtain ⟨m, s, hpieces⟩ := List.length_eq_two.1 hlength
    rw [hpieces] at hcs hruns
    obtain rfl : m ++ ':' :: s = cs := by simpa using hcs
    exact ⟨_, .minutes (hruns m (by simp)) (hruns s (by simp))⟩
  · rename_i hours minutes seconds hparts
    obtain ⟨hlength, hruns⟩ := readPart?_of_mapM hparts
    obtain ⟨h, m, s, hpieces⟩ := List.length_eq_three.1 hlength
    rw [hpieces] at hcs hruns
    obtain rfl : h ++ ':' :: (m ++ ':' :: s) = cs := by simpa using hcs
    exact ⟨_, .hours (hruns h (by simp)) (hruns m (by simp)) (hruns s (by simp))⟩
  · cases hread

theorem readMagnitude?_eq_some_iff :
    readMagnitude? cs = some d ↔ ∃ n, Measures cs n ∧ d.seconds.val = n := by
  constructor
  · intro h
    obtain ⟨n, hn⟩ := exists_measures_of_readMagnitude? h
    rw [readMagnitude?_of_measures hn] at h
    obtain ⟨a, ha, rfl⟩ := Option.map_eq_some_iff.1 h
    exact ⟨n, hn, (Word.ofInt?_eq_some_iff.1 ha).symm⟩
  · rintro ⟨n, hn, hd⟩
    rw [readMagnitude?_of_measures hn, ← hd, Word.ofInt?_val]
    rfl

theorem neg?_eq_some_iff {d e : Duration} : d.neg? = some e ↔ e.seconds.val = -d.seconds.val := by
  constructor
  · intro h
    obtain ⟨a, ha, rfl⟩ := Option.map_eq_some_iff.1 h
    exact (Word.ofInt?_eq_some_iff.1 ha).symm
  · intro h
    rw [neg?, Word.neg?, ← h, Word.ofInt?_val]
    rfl

/-- No magnitude begins with a sign. -/
theorem read?_of_measures (h : Measures cs n) : read? cs = readMagnitude? cs := by
  cases h with
  | minutes hm hs => exact read?_of_isRun hm
  | hours hh hm hs => exact read?_of_isRun hh

/-- A text is read as a span exactly if it is one in writing and its seconds without the sign are
less than `2 ^ 63`: no part and no partial sum overflows before the whole does. -/
theorem reads_written_spans (cs : List Char) (d : Duration) :
    read? cs = some d ↔
      ∃ n, Denotes cs n ∧ n.natAbs < 0x8000000000000000 ∧ d.seconds.val = n := by
  have hlower := d.seconds.lower
  have hupper := d.seconds.upper
  constructor
  · intro h
    unfold read? at h
    split at h
    · obtain ⟨magnitude, hmagnitude, hneg⟩ := Option.bind_eq_some_iff.1 h
      obtain ⟨n, hn, hval⟩ := readMagnitude?_eq_some_iff.1 hmagnitude
      have hval' := neg?_eq_some_iff.1 hneg
      have hfits := magnitude.seconds.upper
      exact ⟨-n, .negated hn, by omega, by omega⟩
    · obtain ⟨n, hn, hval⟩ := readMagnitude?_eq_some_iff.1 h
      exact ⟨n, .plain hn, by omega, hval⟩
  · rintro ⟨n, hdenotes, hfits, hval⟩
    cases hdenotes with
    | plain hn => rw [read?_of_measures hn, readMagnitude?_eq_some_iff.2 ⟨_, hn, hval⟩]
    | @negated cs n hn =>
      obtain ⟨a, ha, hav⟩ := Word.exists_of_holds (n := n) ⟨by omega, by omega⟩
      have hmagnitude : readMagnitude? cs = some (mk a) := readMagnitude?_eq_some_iff.2 ⟨n, hn, hav⟩
      have hneg : (mk a).neg? = some d := neg?_eq_some_iff.2 (by rw [hval, hav])
      simp only [read?, hmagnitude, Option.bind_some, hneg]

theorem Measures.readForm? (h : Measures cs n) :
    Value.readForm? .time cs = (Word.ofInt? n).map fun a => .time ⟨a⟩ := by
  rw [Value.readForm?, read?_of_measures h, readMagnitude?_of_measures h, Option.map_map]
  rfl

/-- The text of so many seconds without a sign. -/
def clock (total : Nat) : List Char :=
  digits (total / 3600) ++ ':' :: (padded 2 (total % 3600 / 60) ++ ':' :: padded 2 (total % 60))

theorem chars_eq (d : Duration) :
    d.chars = if d.seconds.val < 0 then '-' :: clock d.seconds.val.natAbs
      else clock d.seconds.val.natAbs := by
  simp [chars, clock, isNegative]

theorem measures_clock (total : Nat) : Measures (clock total) total := by
  have hvalue : value (digits (total / 3600)) * 3600 + value (padded 2 (total % 3600 / 60)) * 60 +
      value (padded 2 (total % 60)) = total := by
    rw [value_digits, value_padded, value_padded]
    omega
  have h := Measures.hours (isRun_digits (total / 3600)) (isRun_padded 2 (total % 3600 / 60))
    (isRun_padded 2 (total % 60))
  rwa [hvalue] at h

theorem denotes_chars (d : Duration) : Denotes d.chars d.seconds.val := by
  have h := measures_clock d.seconds.val.natAbs
  rw [chars_eq]
  split
  · have hval : -(d.seconds.val.natAbs : Int) = d.seconds.val := by omega
    have hnegated := Denotes.negated h
    rwa [hval] at hnegated
  · have hval : (d.seconds.val.natAbs : Int) = d.seconds.val := by omega
    have hplain := Denotes.plain h
    rwa [hval] at hplain

theorem colon_mem_chars (d : Duration) : ':' ∈ d.chars := by
  rw [chars_eq]
  split <;> simp [clock]

theorem read?_chars (d : Duration) :
    read? d.chars = if d.seconds = .least then none else some d := by
  split
  · obtain ⟨seconds⟩ := d
    obtain rfl : seconds = .least := ‹_›
    rfl
  · have hfits := Word.ne_least_iff.1 ‹_›
    exact (reads_written_spans d.chars d).2 ⟨_, denotes_chars d, hfits, rfl⟩

/-- A span is read back from its text, with its sign, unless it is the least one. -/
theorem time_reads_back (trimmed : Bool) (d : Duration) :
    read? d.text.toList = (if d.seconds = .least then none else some d) ∧
    Machine.operand ((Value.time d).fullText trimmed) =
      if d.seconds = .least then .error (.malformed d.text) else .ok (.time d) := by
  have hread : read? d.text.toList = if d.seconds = .least then none else some d := by
    rw [text, String.toList_ofList, read?_chars]
  have hcolon : ':' ∈ d.text.toList := by
    rw [text, String.toList_ofList]
    exact colon_mem_chars d
  refine ⟨hread, ?_⟩
  simp only [Machine.operand, Value.fullText, Value.read?, if_pos hcolon, hread]
  by_cases hleast : d.seconds = .least
  · simp [hleast]
  · simp [hleast]

/-- The least span can be computed and is written like any other, but its text is refused. -/
theorem least_time_is_refused :
    Value.ofText none "0:00 - 2562047788015215:30:07 - 0:01" = .ok (.time ⟨.least⟩) ∧
    (Value.time ⟨.least⟩).fullText false = "-2562047788015215:30:08" ∧
    Machine.operand "-2562047788015215:30:08" = .error (.malformed "-2562047788015215:30:08") := by
  refine ⟨by rfl, by rfl, by rfl⟩

end Duration

end ClockCalc

import ClockCalc.Proofs.Scanning
import ClockCalc.Value.Literal

/-! Amounts are integers of any size, and words hold those in range. A literal may have any number
of digits; it is read as its amount if that fits, for no part and no partial sum of a time
overflows before the whole does. The powers of a word are the exact ones, too. -/

namespace ClockCalc

namespace Word

/-- The integers that fit a word. -/
def Holds (n : Int) : Prop := -0x8000000000000000 ≤ n ∧ n < 0x8000000000000000

instance (n : Int) : Decidable (Holds n) := inferInstanceAs (Decidable (_ ∧ _))

theorem exists_of_holds {n : Int} (h : Holds n) : ∃ a, ofInt? n = some a ∧ a.val = n :=
  ⟨⟨n, h.1, h.2⟩, dif_pos h, rfl⟩

theorem ofInt?_of_not_holds {n : Int} (h : ¬ Holds n) : ofInt? n = none := dif_neg h

theorem holds_val (a : Word) : Holds a.val := ⟨a.lower, a.upper⟩

theorem ne_least_iff {a : Word} : a ≠ least ↔ a.val.natAbs < 0x8000000000000000 := by
  have hlower := a.lower
  have hupper := a.upper
  have hleast : a = least ↔ a.val = -0x8000000000000000 := ⟨congrArg val, fun h => ext_val h⟩
  rw [Ne, hleast]
  omega

/-- A lesser natural number fits if a greater one does. -/
theorem Holds.of_le {m n : Int} (h : Holds n) (hm : 0 ≤ m) (hle : m ≤ n) : Holds m := by
  unfold Holds at *
  omega

/-- The powers of such a base alternate between its first and its second. -/
theorem pow_eq_of_cube {b : Int} (hb : b * b * b = b) :
    ∀ n : Nat, b.pow (n + 1) = b.pow (2 - (n + 1) % 2)
  | 0 => rfl
  | 1 => rfl
  | n + 2 => by
    have hparity : (n + 2 + 1) % 2 = (n + 1) % 2 := by omega
    have hsucc (k : Nat) : b.pow (k + 1) = b.pow k * b := Int.pow_succ b k
    calc b.pow (n + 2 + 1) = b.pow n * (b * b * b) := by
          rw [hsucc, hsucc, hsucc, Int.mul_assoc, Int.mul_assoc, Int.mul_assoc]
      _ = b.pow (n + 1) := by rw [hb, hsucc]
      _ = b.pow (2 - (n + 2 + 1) % 2) := by rw [pow_eq_of_cube hb n, hparity]

theorem not_holds_pow {b : Int} {n : Nat} (hb : 2 ≤ b.natAbs) (hn : 64 ≤ n) :
    ¬ Holds (b.pow n) := by
  have hbase : 2 ^ n ≤ b.natAbs ^ n := Nat.pow_le_pow_left hb n
  have hexponent : 2 ^ 64 ≤ 2 ^ n := Nat.pow_le_pow_right (by decide) hn
  have habs : (b.pow n).natAbs = b.natAbs ^ n := Int.natAbs_pow b n
  unfold Holds
  omega

theorem pow?_eq_ofInt? (base : Word) (n : Nat) : base.pow? n = ofInt? (base.val.pow n) := by
  unfold pow?
  split
  · rename_i hbase
    cases n with
    | zero => rfl
    | succ n =>
      have hcube : base.val * base.val * base.val = base.val := by
        have hcases : base.val = -1 ∨ base.val = 0 ∨ base.val = 1 := by omega
        rcases hcases with h | h | h <;> rw [h] <;> rfl
      rw [if_neg (Nat.succ_ne_zero n), pow_eq_of_cube hcube n]
  · rename_i hbase
    split
    · rfl
    · rename_i hn
      rw [ofInt?_of_not_holds (not_holds_pow (by omega) (by omega))]

end Word

namespace Numeral

open Token (IsRun)

variable {ds : List Char}

theorem read?_of_isRun (h : IsRun ds) : read? ds = some (value ds) := by
  simpa [read?, h.1] using h.2

theorem readSigned?_of_isRun (h : IsRun ds) : readSigned? ds = some (value ds : Int) := by
  have head {c : Char} {cs : List Char} (hr : IsRun (c :: cs)) : c.isDigit = true :=
    hr.2 c (by simp)
  unfold readSigned?
  split
  · exact absurd (head h) (by decide)
  · exact absurd (head h) (by decide)
  · rw [read?_of_isRun h]
    rfl

theorem readWord?_of_isRun (h : IsRun ds) : readWord? ds = Word.ofInt? (value ds) := by
  rw [readWord?, readSigned?_of_isRun h, Option.bind_some]

end Numeral

namespace Duration

open Token (IsRun)

/-- Of parts that are not negative the sum overflows where the whole does and nowhere before. -/
theorem ofParts?_eq_ofInt? {hours minutes seconds : Word} (hh : 0 ≤ hours.val)
    (hm : 0 ≤ minutes.val) (hs : 0 ≤ seconds.val) :
    ofParts? hours minutes seconds =
      (Word.ofInt? (hours.val * 3600 + minutes.val * 60 + seconds.val)).map mk := by
  by_cases htotal : Word.Holds (hours.val * 3600 + minutes.val * 60 + seconds.val)
  · obtain ⟨inHours, hin, hinv⟩ := Word.exists_of_holds
      (htotal.of_le (by omega : 0 ≤ hours.val * 3600) (by omega))
    obtain ⟨inMinutes, hmin, hminv⟩ := Word.exists_of_holds
      (htotal.of_le (by omega : 0 ≤ minutes.val * 60) (by omega))
    obtain ⟨subtotal, hsub, hsubv⟩ := Word.exists_of_holds
      (htotal.of_le (by omega : 0 ≤ hours.val * 3600 + minutes.val * 60) (by omega))
    obtain ⟨total, htot, htotv⟩ := Word.exists_of_holds htotal
    simp [ofParts?, hin, hmin, Word.add?, hinv, hminv, hsub, hsubv, htot]
  · rw [Word.ofInt?_of_not_holds htotal]
    simp only [ofParts?, Option.bind_eq_bind, Option.map_none, Option.bind_eq_none_iff]
    intro inHours hin inMinutes hmin subtotal hsub total htot
    have hinv := Word.ofInt?_eq_some_iff.1 hin
    have hminv := Word.ofInt?_eq_some_iff.1 hmin
    have hsubv := Word.ofInt?_eq_some_iff.1 hsub
    have htotv := Word.ofInt?_eq_some_iff.1 htot
    refine absurd total.holds_val ?_
    rwa [← htotv, ← hsubv, ← hinv, ← hminv]

variable {h m s : List Char}

theorem readPart?_of_isRun (hm : IsRun m) : readPart? m = Word.ofInt? (Numeral.value m) := by
  rw [readPart?, Numeral.read?_of_isRun hm, Option.bind_some]

theorem splitOn_minutes (hm : IsRun m) (hs : IsRun s) :
    (m ++ ':' :: s).splitOn ':' = [m, s] := by
  rw [List.splitOn_append_cons_self_of_not_mem (hm.not_mem rfl),
    List.splitOn_eq_singleton (hs.not_mem rfl)]

theorem splitOn_hours (hh : IsRun h) (hm : IsRun m) (hs : IsRun s) :
    (h ++ ':' :: (m ++ ':' :: s)).splitOn ':' = [h, m, s] := by
  rw [List.splitOn_append_cons_self_of_not_mem (hh.not_mem rfl), splitOn_minutes hm hs]

/-- A part that does not fit is more than the whole may be. -/
theorem ofParts?_of_counts (hours minutes seconds : Nat) :
    ((Word.ofInt? hours).bind fun h => (Word.ofInt? minutes).bind fun m =>
      (Word.ofInt? seconds).bind fun s => ofParts? h m s) =
      (Word.ofInt? (hours * 3600 + minutes * 60 + seconds)).map mk := by
  by_cases htotal : Word.Holds (hours * 3600 + minutes * 60 + seconds)
  · obtain ⟨a, ha, hav⟩ := Word.exists_of_holds
      (htotal.of_le (by omega : (0 : Int) ≤ hours) (by omega))
    obtain ⟨b, hb, hbv⟩ := Word.exists_of_holds
      (htotal.of_le (by omega : (0 : Int) ≤ minutes) (by omega))
    obtain ⟨c, hc, hcv⟩ := Word.exists_of_holds
      (htotal.of_le (by omega : (0 : Int) ≤ seconds) (by omega))
    rw [ha, hb, hc, Option.bind_some, Option.bind_some, Option.bind_some,
      ofParts?_eq_ofInt? (by omega) (by omega) (by omega), hav, hbv, hcv]
  · rw [Word.ofInt?_of_not_holds htotal, Option.map_none, Option.bind_eq_none_iff]
    intro a ha
    rw [Option.bind_eq_none_iff]
    intro b hb
    rw [Option.bind_eq_none_iff]
    intro c hc
    have hav := Word.ofInt?_eq_some_iff.1 ha
    have hbv := Word.ofInt?_eq_some_iff.1 hb
    have hcv := Word.ofInt?_eq_some_iff.1 hc
    rw [ofParts?_eq_ofInt? (by omega) (by omega) (by omega), ← hav, ← hbv, ← hcv,
      Word.ofInt?_of_not_holds htotal, Option.map_none]

theorem readMagnitude?_minutes (hm : IsRun m) (hs : IsRun s) :
    readMagnitude? (m ++ ':' :: s) =
      (Word.ofInt? (Numeral.value m * 60 + Numeral.value s)).map mk := by
  have hcounts := ofParts?_of_counts 0 (Numeral.value m) (Numeral.value s)
  have hzero : Word.ofInt? (0 : Nat) = some Word.zero := rfl
  rw [hzero, Option.bind_some] at hcounts
  simp only [readMagnitude?, splitOn_minutes hm hs, List.mapM_cons, List.mapM_nil,
    readPart?_of_isRun hm, readPart?_of_isRun hs]
  cases ha : Word.ofInt? (Numeral.value m) with
  | none => simpa [ha] using hcounts
  | some a =>
    cases hb : Word.ofInt? (Numeral.value s) with
    | none => simpa [ha, hb] using hcounts
    | some b => simpa [ha, hb] using hcounts

theorem readMagnitude?_hours (hh : IsRun h) (hm : IsRun m) (hs : IsRun s) :
    readMagnitude? (h ++ ':' :: (m ++ ':' :: s)) =
      (Word.ofInt?
        (Numeral.value h * 3600 + Numeral.value m * 60 + Numeral.value s)).map mk := by
  rw [← ofParts?_of_counts]
  simp only [readMagnitude?, splitOn_hours hh hm hs, List.mapM_cons, List.mapM_nil,
    readPart?_of_isRun hh, readPart?_of_isRun hm, readPart?_of_isRun hs]
  cases Word.ofInt? (Numeral.value h) with
  | none => rfl
  | some a =>
    cases Word.ofInt? (Numeral.value m) with
    | none => rfl
    | some b => cases Word.ofInt? (Numeral.value s) <;> rfl

theorem read?_of_isRun {rest : List Char} (h : IsRun m) :
    read? (m ++ rest) = readMagnitude? (m ++ rest) := by
  obtain ⟨c, cs, rfl⟩ := List.exists_cons_of_ne_nil h.1
  have hc : c.isDigit = true := h.2 c (by simp)
  unfold read?
  split
  · rename_i hminus
    obtain ⟨rfl, -⟩ := List.cons.inj hminus
    exact absurd hc (by decide)
  · rfl

end Duration

/-- A number, or a span of time in seconds, of any size. -/
inductive Amount where
  | number (n : Int)
  | time (seconds : Int)
  deriving DecidableEq

namespace Amount

def kind : Amount → Kind
  | number _ => .number
  | time _ => .time

def toInt : Amount → Int
  | number n => n
  | time s => s

/-- Decimal literals have no amount. -/
def ofForm? (form : LiteralForm) (cs : List Char) : Option Amount :=
  match form with
  | .integer => some (number (Numeral.value cs))
  | .decimal => none
  | .time =>
    match (cs.splitOn ':').map Numeral.value with
    | [minutes, seconds] => some (time (minutes * 60 + seconds))
    | [hours, minutes, seconds] => some (time (hours * 3600 + minutes * 60 + seconds))
    | _ => none

def ofLiteral? (t : Token) : Option Amount :=
  match t.kind with
  | .literal form => ofForm? form t.lexeme.toList
  | _ => none

theorem ofForm?_of_ofLiteral? {t : Token} {x : Amount} (h : ofLiteral? t = some x) :
    ∃ form, t.kind = .literal form ∧ ofForm? form t.lexeme.toList = some x := by
  unfold ofLiteral? at h
  split at h
  · rename_i form hk
    exact ⟨form, hk, h⟩
  · cases h

end Amount

namespace Value

/-- Doubles stand for no amount. -/
def amount? : Value → Option Amount
  | number (.integer n) => some (.number n.val)
  | number (.real _) => none
  | time d => some (.time d.seconds.val)

variable {x : Amount} {v : Value}

theorem kind_of_amount? (h : v.amount? = some x) : v.kind = x.kind := by
  unfold amount? at h
  split at h <;> cases h <;> rfl

theorem eq_number_of_amount? {n : Int} (h : v.amount? = some (.number n)) :
    ∃ a : Word, v = .number (.integer a) ∧ a.val = n := by
  unfold amount? at h
  split at h <;> cases h
  exact ⟨_, rfl, rfl⟩

theorem eq_time_of_amount? {s : Int} (h : v.amount? = some (.time s)) :
    ∃ a : Word, v = .time ⟨a⟩ ∧ a.val = s := by
  unfold amount? at h
  split at h <;> cases h
  exact ⟨_, rfl, rfl⟩

theorem readForm?_of_isRun {ds : List Char} (h : Token.IsRun ds) :
    readForm? .integer ds = (Word.ofInt? (Numeral.value ds)).map fun a => number (.integer a) := by
  rw [readForm?, Numeral.readWord?_of_isRun h]

/-- A literal that fits is read as its amount. -/
theorem exists_readForm? {form : LiteralForm} {cs : List Char}
    (hspells : Token.Spells (.literal form) cs) (hx : Amount.ofForm? form cs = some x)
    (hfits : Word.Holds x.toInt) : ∃ v, readForm? form cs = some v ∧ v.amount? = some x := by
  obtain ⟨a, ha, hav⟩ := Word.exists_of_holds hfits
  cases hspells with
  | integer hd =>
    cases hx
    exact ⟨.number (.integer a), (readForm?_of_isRun hd).trans (congrArg (Option.map _) ha),
      congrArg (some <| Amount.number ·) hav⟩
  | @minutes m s hm hs =>
    simp only [Amount.ofForm?, Duration.splitOn_minutes hm hs, List.map_cons, List.map_nil,
      Option.some.injEq] at hx
    subst hx
    have hread := (Duration.readMagnitude?_minutes hm hs).trans
      (congrArg (Option.map Duration.mk) ha)
    refine ⟨.time ⟨a⟩, ?_, congrArg (some <| Amount.time ·) hav⟩
    simp only [readForm?, Duration.read?_of_isRun hm, hread, Option.map_some]
  | @hours h m s hh hm hs =>
    simp only [Amount.ofForm?, Duration.splitOn_hours hh hm hs, List.map_cons, List.map_nil,
      Option.some.injEq] at hx
    subst hx
    have hread := (Duration.readMagnitude?_hours hh hm hs).trans
      (congrArg (Option.map Duration.mk) ha)
    refine ⟨.time ⟨a⟩, ?_, congrArg (some <| Amount.time ·) hav⟩
    simp only [readForm?, Duration.read?_of_isRun hh, hread, Option.map_some]
  | decimal hd hf => cases hx

end Value

end ClockCalc

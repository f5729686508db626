import ClockCalc.Proofs.Spacing
import ClockCalc.Proofs.Spans
import ClockCalc.Proofs.Tree

/-! Results entered again. The text of an integer or of a span of time is an expression: a literal,
behind a sign if the value is negative. It comes to the value it was written for. Only the least
word has no way back, for its literal is too large before the sign is applied to it. -/

namespace ClockCalc

namespace Token

variable {form : LiteralForm} {body : List Char}

theorem Spells.munches (h : Spells (.literal form) body) (position : Nat) :
    Munches position body [⟨.literal form, String.ofList body, position⟩] := by
  have hlong : Longest (.literal form) body (body ++ []) := by
    rw [List.append_nil]
    exact longest_of_longest? h.longest?_self
  have hm : Munches position (body ++ []) _ := .token hlong .done
  rwa [List.append_nil] at hm

theorem ofText_literal (h : Spells (.literal form) body) :
    ofText (String.ofList body) = .ok [⟨.literal form, String.ofList body, 0⟩] := by
  rw [ofText_eq_ok_iff_munches, String.toList_ofList]
  exact h.munches 0

theorem ofText_minus (h : Spells (.literal form) body) :
    ofText (String.ofList ('-' :: body)) =
      .ok [⟨.operator .sub, "-", 0⟩, ⟨.literal form, String.ofList body, 1⟩] := by
  have hsign : Longest (.operator .sub) ['-'] (['-'] ++ body) := longest_of_longest? rfl
  rw [ofText_eq_ok_iff_munches, String.toList_ofList]
  exact .token hsign (h.munches 1)

end Token

namespace Expr

/-- The expression that a text is. -/
def ofText (text : String) : Except Error Expr := do
  reducer.read (← (Token.ofText text).mapError .unreadable)

theorem answer_eq_fold {text : String} {e : Expr} (h : ofText text = .ok e)
    (wanted : Option Kind) :
    answer wanted text = (do
      let v ← Value.reducer.fold e
      Kind.expect wanted v.kind
      return v.text) := by
  obtain ⟨ts, hts, hread⟩ := bind_eq_ok_iff.1 h
  rw [answer_eq (mapError_eq_ok_iff.1 hts), Value.ofTokens, Value.reducer.read_eq_fold hread]
  cases Value.reducer.fold e with
  | error err => rfl
  | ok v => cases hkind : Kind.expect wanted v.kind <;> simp [hkind, Except.map]

end Expr

namespace Value

/-- What integers and spans of time have in common: there is one for each word, its text is a
literal behind a sign, and a literal stands for the word of its magnitude. -/
structure Written (form : LiteralForm) (kind : Kind) (write : Nat → List Char)
    (value : Word → Value) : Prop where
  spells : ∀ n, Token.Spells (.literal form) (write n)
  reads : ∀ n : Nat, readForm? form (write n) = (Word.ofInt? n).map value
  text : ∀ a, (value a).text =
    String.ofList (if a.val < 0 then '-' :: write a.val.natAbs else write a.val.natAbs)
  kind : ∀ a, (value a).kind = kind
  negated : ∀ a b, a.neg? = some b → (value a).applySign .minus = .ok (value b)

variable {form : LiteralForm} {kind : Kind} {write : Nat → List Char} {value : Word → Value}

/-- The literal in the text of a word; a sign before it takes up one byte. -/
def literalOf (form : LiteralForm) (write : Nat → List Char) (a : Word) : Token :=
  ⟨.literal form, String.ofList (write a.val.natAbs), if a.val < 0 then 1 else 0⟩

theorem Written.tree (h : Written form kind write value) (a : Word) :
    Expr.ofText (value a).text =
      .ok (if a.val < 0 then .signed .minus (.literal (literalOf form write a)) 0
        else .literal (literalOf form write a)) := by
  rw [h.text a, Expr.ofText, literalOf]
  split
  · rw [Token.ofText_minus (h.spells _)]
    rfl
  · rw [Token.ofText_literal (h.spells _)]
    rfl

theorem Written.literal_of_some (h : Written form kind write value) {n : Nat} {a : Word}
    (ha : Word.ofInt? n = some a) (position : Nat) :
    reducer.literal ⟨.literal form, String.ofList (write n), position⟩ = .ok (value a) := by
  simp only [reducer, ofLiteral, String.toList_ofList, h.reads, ha, Option.map_some, mapError_ok]

theorem Written.literal_of_none (h : Written form kind write value) {n : Nat}
    (hn : Word.ofInt? n = none) (position : Nat) :
    reducer.literal ⟨.literal form, String.ofList (write n), position⟩ =
      .error (.grammar (.tooLarge (String.ofList (write n)) position)) := by
  simp only [reducer, ofLiteral, String.toList_ofList, h.reads, hn, Option.map_none,
    mapError_error]

/-- The magnitude is read first, so the sign comes too late for the least word. -/
theorem Written.fold_negative (h : Written form kind write value) {a : Word} (ha : a.val < 0) :
    reducer.fold (.signed .minus (.literal (literalOf form write a)) 0) =
      if a = .least then
        .error (.grammar (.tooLarge (String.ofList (write Word.least.val.natAbs)) 1))
      else .ok (value a) := by
  rw [Reducer.fold, Reducer.fold, literalOf, if_pos ha]
  split
  · obtain rfl : a = .least := ‹_›
    rw [h.literal_of_none (by decide), error_bind]
  · have hfits := Word.ne_least_iff.1 ‹_›
    obtain ⟨b, hb, hbv⟩ := Word.exists_of_holds (n := a.val.natAbs) ⟨by omega, by omega⟩
    have hneg : b.neg? = some a := Word.ofInt?_eq_some_iff.2 (by omega)
    rw [h.literal_of_some hb, ok_bind]
    simp only [reducer, h.negated b a hneg, mapError_ok]

theorem Written.fold_nonnegative (h : Written form kind write value) {a : Word} (ha : 0 ≤ a.val) :
    reducer.fold (.literal (literalOf form write a)) = .ok (value a) := by
  have hread : Word.ofInt? a.val.natAbs = some a := by
    rw [Word.ofInt?_eq_some_iff, Int.natAbs_of_nonneg ha]
  exact h.literal_of_some hread _

theorem Written.answer (h : Written form kind write value) (a : Word) :
    ClockCalc.answer (some kind) (value a).text =
      if a = .least then
        .error (.grammar (.tooLarge (String.ofList (write Word.least.val.natAbs)) 1))
      else .ok (value a).text := by
  have htree := h.tree a
  have hexpect : Kind.expect (some kind) (value a).kind = .ok () := by
    rw [h.kind]
    exact if_pos rfl
  rw [Expr.answer_eq_fold htree]
  by_cases ha : a.val < 0
  · rw [if_pos ha, h.fold_negative ha]
    by_cases hleast : a = .least
    · simp only [if_pos hleast, error_bind]
    · simp only [if_neg hleast, ok_bind, hexpect, pure_eq_ok]
  · have hleast : a ≠ .least := by
      rintro rfl
      exact ha (by decide)
    rw [if_neg ha, h.fold_nonnegative (by omega), if_neg hleast]
    simp only [ok_bind, hexpect, pure_eq_ok]

theorem written_integers :
    Written .integer .number Numeral.digits fun a => number (.integer a) where
  spells n := .integer (Numeral.isRun_digits n)
  reads n := by rw [readForm?_of_isRun (Numeral.isRun_digits n), Numeral.value_digits]
  text a := rfl
  kind a := rfl
  negated a b h := by rw [applySign, Number.negate, h]

theorem written_spans : Written .time .time Duration.clock fun a => time ⟨a⟩ where
  spells n := .hours (Numeral.isRun_digits _) (Numeral.isRun_padded 2 _) (Numeral.isRun_padded 2 _)
  reads n := (Duration.measures_clock n).readForm?
  text a := by rw [Value.text, Duration.text, Duration.chars_eq]
  kind a := rfl
  negated a b h := by rw [applySign, Duration.neg?, h]; rfl

/-- A result that is an integer or a span of time can be entered again and is answered by the same
text; a negative one is read as a literal with a sign. The least word is refused for its literal,
which stands behind the sign. -/
theorem exact_results_reenter :
    (∀ n : Word, answer (some .number) (Number.integer n).text =
      if n = .least then .error (.grammar (.tooLarge "9223372036854775808" 1))
      else .ok (Number.integer n).text) ∧
    (∀ d : Duration, answer (some .time) d.text =
      if d.seconds = .least then .error (.grammar (.tooLarge "2562047788015215:30:08" 1))
      else .ok d.text) ∧
    (∀ n : Word, ∃ t, t.kind = .literal .integer ∧ Expr.ofText (Number.integer n).text =
      .ok (if n.val < 0 then .signed .minus (.literal t) 0 else .literal t)) ∧
    ∀ d : Duration, ∃ t, t.kind = .literal .time ∧ Expr.ofText d.text =
      .ok (if d.seconds.val < 0 then .signed .minus (.literal t) 0 else .literal t) := by
  refine ⟨fun n => ?_, fun d => ?_, fun n => ?_, fun d => ?_⟩
  · exact written_integers.answer n
  · exact written_spans.answer d.seconds
  · exact ⟨_, rfl, written_integers.tree n⟩
  · exact ⟨_, rfl, written_spans.tree d.seconds⟩

end Value

end ClockCalc

import ClockCalc.Proofs.Placement
import ClockCalc.Proofs.Scanning

/-! Spaces between tokens mean nothing. However the lexemes of a text are spaced out, they are read
as the same tokens again, as long as no two literals touch: no character that may follow a token can
make it longer. Reading does not look at the places of the tokens, so the text means the same. -/

namespace ClockCalc

namespace Token

/-- A text that writes the lexemes in their order, with any number of spaces before, between and
after them, and at least one between two literals. -/
inductive Spaced : List Token → List Char → Prop
  | done : Spaced [] []
  | space {ts cs} : Spaced ts cs → Spaced ts (' ' :: cs)
  | token {t ts cs} : Spaced ts cs →
      (t.isLiteral = true → ∀ u ∈ ts.head?, u.isLiteral = true → cs.head? = some ' ') →
      Spaced (t :: ts) (t.lexeme.toList ++ cs)

/-- The characters of literals. -/
def InLiteral (c : Char) : Prop := c.isDigit = true ∨ c = ':' ∨ c = '.'

variable {kind : Kind} {lexeme cs : List Char}

theorem IsRun.inLiteral {run : List Char} (h : IsRun run) : ∀ c ∈ run, InLiteral c :=
  fun c hc => .inl (h.2 c hc)

theorem Spells.inLiteral {form : LiteralForm} (h : Spells (.literal form) lexeme) :
    ∀ c ∈ lexeme, InLiteral c := by
  have hcolon : InLiteral ':' := .inr (.inl rfl)
  have hpoint : InLiteral '.' := .inr (.inr rfl)
  cases h with
  | minutes hm hs =>
    simpa [or_imp, forall_and, hcolon] using ⟨hm.inLiteral, hs.inLiteral⟩
  | hours hh hm hs =>
    simpa [or_imp, forall_and, hcolon] using ⟨hh.inLiteral, hm.inLiteral, hs.inLiteral⟩
  | decimal hd hf =>
    simpa [or_imp, forall_and, hpoint] using ⟨hd.inLiteral, hf.inLiteral⟩
  | integer hd => exact hd.inLiteral

/-- All other tokens are single characters that no literal has. -/
theorem Spells.exists_symbol (h : Spells kind lexeme) (hk : ∀ form, kind ≠ .literal form) :
    ∃ c, lexeme = [c] ∧ ¬ InLiteral c := by
  cases h with
  | minutes hm hs => exact absurd rfl (hk .time)
  | hours hh hm hs => exact absurd rfl (hk .time)
  | decimal hd hf => exact absurd rfl (hk .decimal)
  | integer hd => exact absurd rfl (hk .integer)
  | operator op => cases op <;> exact ⟨_, rfl, by unfold InLiteral; decide⟩
  | opening => exact ⟨_, rfl, by unfold InLiteral; decide⟩
  | closing => exact ⟨_, rfl, by unfold InLiteral; decide⟩

theorem mem_of_longer {lexeme' : List Char} {c : Char} (hp : lexeme' <+: lexeme ++ c :: cs)
    (hlong : lexeme.length < lexeme'.length) : c ∈ lexeme' := by
  have hnext : lexeme ++ [c] <+: lexeme ++ c :: cs :=
    (List.prefix_append_right_inj lexeme).2 ⟨cs, rfl⟩
  have hin : lexeme ++ [c] <+: lexeme' :=
    List.prefix_of_prefix_length_le hnext hp (by rw [List.length_append]; exact hlong)
  exact hin.subset (by simp)

/-- A literal ends where a character follows that no literal has; a symbol ends in any case. -/
theorem Spells.longest_append (h : Spells kind lexeme)
    (hrest : ∀ form, kind = .literal form → ∀ c ∈ cs.head?, ¬ InLiteral c) :
    Longest kind lexeme (lexeme ++ cs) := by
  refine ⟨h, List.prefix_append _ _, ?_⟩
  intro kind' lexeme' h' hp
  have hpos : 0 < lexeme.length := List.length_pos_iff.2 h.ne_nil
  refine Nat.le_of_not_lt fun hlong => ?_
  by_cases hk' : ∃ form, kind' = .literal form
  · obtain ⟨form', rfl⟩ := hk'
    by_cases hk : ∃ form, kind = .literal form
    · obtain ⟨form, rfl⟩ := hk
      cases cs with
      | nil =>
        rw [List.append_nil] at hp
        exact absurd hp.length_le (Nat.not_le_of_lt hlong)
      | cons c cs =>
        have hc : c ∈ lexeme' := mem_of_longer hp hlong
        exact hrest form rfl c rfl (h'.inLiteral c hc)
    · obtain ⟨c, rfl, hc⟩ := h.exists_symbol fun form hform => hk ⟨form, hform⟩
      have hin : [c] <+: lexeme' :=
        List.prefix_of_prefix_length_le (List.prefix_append [c] cs) hp (Nat.le_of_lt hlong)
      exact hc (h'.inLiteral c (hin.subset (by simp)))
  · obtain ⟨c, rfl, -⟩ := h'.exists_symbol fun form hform => hk' ⟨form, hform⟩
    simp only [List.length_cons, List.length_nil] at hlong
    omega

theorem kind_ne_literal {t : Token} (h : t.isLiteral = false) (form : LiteralForm) :
    t.kind ≠ .literal form := by
  intro hk
  simp [isLiteral, hk] at h

/-- Where a literal may end, the text does not go on with a character of literals. -/
theorem Spaced.head {ts : List Token} (h : Spaced ts cs)
    (hspells : ∀ t ∈ ts, Spells t.kind t.lexeme.toList)
    (hapart : ∀ u ∈ ts.head?, u.isLiteral = true → cs.head? = some ' ') :
    ∀ c ∈ cs.head?, ¬ InLiteral c := by
  intro c hc
  have hspace : ¬ InLiteral ' ' := by unfold InLiteral; decide
  cases h with
  | done => cases hc
  | space h =>
    cases hc
    exact hspace
  | @token t ts cs h _ =>
    cases hl : t.isLiteral with
    | true =>
      rw [hapart t rfl hl] at hc
      cases hc
      exact hspace
    | false =>
      obtain ⟨s, hs, hsymbol⟩ :=
        (hspells t List.mem_cons_self).exists_symbol (kind_ne_literal hl)
      rw [hs] at hc
      cases hc
      exact hsymbol

/-- The spaced lexemes are used up as the same tokens at other places. By induction on the text: the
places of the later tokens are found first, and that of the first token differs from them. -/
theorem Spaced.exists_munches {ts : List Token} (h : Spaced ts cs)
    (hspells : ∀ t ∈ ts, Spells t.kind t.lexeme.toList)
    (hplaces : ts.Pairwise fun t u => t.position ≠ u.position) (position : Nat) :
    ∃ f, Munches position cs (ts.map (moved f)) := by
  induction h generalizing position with
  | done => exact ⟨id, .done⟩
  | space h ih =>
    obtain ⟨f, hf⟩ := ih hspells hplaces (position + 1)
    exact ⟨f, .space hf⟩
  | @token t ts cs h hapart ih =>
    obtain ⟨ht, hts⟩ := List.forall_mem_cons.1 hspells
    obtain ⟨hdiffers, hplaces⟩ := List.pairwise_cons.1 hplaces
    obtain ⟨f, hf⟩ := ih hts hplaces (position + bytes t.lexeme.toList)
    let g : Nat → Nat := fun p => if p = t.position then position else f p
    have hsame : ts.map (moved g) = ts.map (moved f) :=
      map_moved_congr fun u hu => if_neg (hdiffers u hu).symm
    have hmoved : t.moved g = ⟨t.kind, String.ofList t.lexeme.toList, position⟩ := by
      simp [moved, g]
    have hlongest : Longest t.kind t.lexeme.toList (t.lexeme.toList ++ cs) := by
      refine ht.longest_append ?_
      intro form hform
      exact h.head hts (hapart (by simp [isLiteral, hform]))
    refine ⟨g, ?_⟩
    rw [List.map_cons, hsame, hmoved]
    exact .token hlongest hf

theorem Spaced.exists_ofText {text text' : String} {ts : List Token} (h : ofText text = .ok ts)
    (hs : Spaced ts text'.toList) : ∃ f, ofText text' = .ok (ts.map (moved f)) := by
  have hplaces : ts.Pairwise fun t u => t.position ≠ u.position :=
    (ofText_eq_ok_iff_munches.1 h).pairwise_precedes.imp fun hp => Nat.ne_of_lt hp.1
  obtain ⟨f, hf⟩ := hs.exists_munches (fun t ht => spells_of_ofText h ht) hplaces 0
  exact ⟨f, ofText_eq_ok_iff_munches.2 hf⟩

end Token

theorem Postfix.ofText_eq {text : String} {ts : List Token} (h : Token.ofText text = .ok ts)
    (wanted : Option Kind) : ofText wanted text = ofTokens wanted ts := by
  rw [ofText, h]
  rfl

theorem answer_eq {text : String} {ts : List Token} (h : Token.ofText text = .ok ts)
    (wanted : Option Kind) : answer wanted text = (Value.ofTokens wanted ts).map Value.text := by
  rw [answer, Value.ofText, h]
  rfl

/-- If the lexemes of a text are spaced out in another way, the tokens are the same at other places.
The listing and the answer are the same, or the same error, in which every position is that of a
token and has become the new place of that token. -/
theorem spacing_keeps_meaning {text text' : String} {ts : List Token}
    (h : Token.ofText text = .ok ts) (hs : Token.Spaced ts text'.toList) :
    ∃ f : Nat → Nat, Token.ofText text' = .ok (ts.map (Token.moved f)) ∧
      ∀ wanted,
        Postfix.ofText wanted text' = (Postfix.ofText wanted text).mapError (Error.moved f) ∧
        answer wanted text' = (answer wanted text).mapError (Error.moved f) ∧
        ∀ err, Postfix.ofText wanted text = .error err ∨ answer wanted text = .error err →
          ∀ position ∈ err.positions, ∃ t ∈ ts, t.position = position := by
  obtain ⟨f, hf⟩ := hs.exists_ofText h
  refine ⟨f, hf, fun wanted => ⟨?_, ?_, ?_⟩⟩
  · rw [Postfix.ofText_eq hf, Postfix.ofText_eq h, Postfix.uniform_ofTokens wanted f ts]
  · rw [answer_eq hf, answer_eq h, Value.uniform_ofTokens wanted f ts]
    cases Value.ofTokens wanted ts <;> rfl
  · intro err herr
    rw [Postfix.ofText_eq h, answer_eq h] at herr
    rcases herr with hlisting | hanswer
    · exact (Postfix.uniform_ofTokens wanted).exists_token hlisting
    · exact (Value.uniform_ofTokens wanted).exists_token (map_eq_error_iff.1 hanswer)

theorem spacing_keeps_value_and_faults :
    (∃ ts, Token.ofText "2*0:30" = .ok ts ∧ Token.Spaced ts "2 *  0:30 ".toList ∧
      Token.ofText "2 *  0:30 " ≠ .ok ts ∧
      Postfix.ofText none "2 *  0:30 " =
        .ok ⟨[.operand "2", .operand "0:30", .mark (.binary .mul)], .time⟩ ∧
      answer none "2 *  0:30 " = .ok "0:01:00") ∧
    ∃ ts, Token.ofText "1/0 2" = .ok ts ∧ Token.Spaced ts " 1 /0   2".toList ∧
    ∃ f : Nat → Nat, Token.ofText " 1 /0   2" = .ok (ts.map (Token.moved f)) ∧
      ∀ wanted,
        Postfix.ofText wanted " 1 /0   2" =
          (Postfix.ofText wanted "1/0 2").mapError (Error.moved f) ∧
        answer wanted " 1 /0   2" = (answer wanted "1/0 2").mapError (Error.moved f) ∧
        ∀ err, Postfix.ofText wanted "1/0 2" = .error err ∨ answer wanted "1/0 2" = .error err →
          ∀ position ∈ err.positions, ∃ t ∈ ts, t.position = position := by
  constructor
  · have h : Token.ofText "2*0:30" = .ok [⟨.literal .integer, "2", 0⟩, ⟨.operator .mul, "*", 1⟩,
        ⟨.literal .time, "0:30", 2⟩] := rfl
    have htext : "2 *  0:30 ".toList =
        "2".toList ++ ' ' :: ("*".toList ++ ' ' :: ' ' :: ("0:30".toList ++ [' '])) := rfl
    have hs : Token.Spaced [⟨.literal .integer, "2", 0⟩, ⟨.operator .mul, "*", 1⟩,
        ⟨.literal .time, "0:30", 2⟩] "2 *  0:30 ".toList := by
      rw [htext]
      refine .token (.space (.token (.space (.space (.token (.space .done) ?_))) ?_)) ?_ <;>
        simp [Token.isLiteral]
    obtain ⟨f, -, hsame⟩ := spacing_keeps_meaning h hs
    obtain ⟨hlisting, hanswer, -⟩ := hsame none
    exact ⟨_, h, hs, nofun, hlisting, hanswer⟩
  · have h : Token.ofText "1/0 2" = .ok [⟨.literal .integer, "1", 0⟩, ⟨.operator .div, "/", 1⟩,
        ⟨.literal .integer, "0", 2⟩, ⟨.literal .integer, "2", 4⟩] := rfl
    have htext : " 1 /0   2".toList =
        ' ' :: ("1".toList ++ ' ' :: ("/".toList ++ ("0".toList ++ ' ' :: ' ' :: ' ' ::
          ("2".toList ++ [])))) := rfl
    have hs : Token.Spaced [⟨.literal .integer, "1", 0⟩, ⟨.operator .div, "/", 1⟩,
        ⟨.literal .integer, "0", 2⟩, ⟨.literal .integer, "2", 4⟩] " 1 /0   2".toList := by
      rw [htext]
      refine .space (.token (.space (.token (.token (.space (.space (.space (.token .done ?_)))) ?_)
        ?_)) ?_) <;> simp [Token.isLiteral]
    exact ⟨_, h, hs, spacing_keeps_meaning h hs⟩

-- the same quotient is at fault, and the listing is refused for the same literal
example :
    answer none "1/0 2" = .error (.run (.arithmetic .divisionByZero (some 1))) ∧
    answer none " 1 /0   2" = .error (.run (.arithmetic .divisionByZero (some 3))) ∧
    Postfix.ofText none "1/0 2" = .error (.grammar (.unexpected "2" 4)) ∧
    Postfix.ofText none " 1 /0   2" = .error (.grammar (.unexpected "2" 8)) :=
  ⟨rfl, rfl, rfl, rfl⟩

end ClockCalc

import ClockCalc.Proofs.Scanning

/-! Where the scanner stops. The character there begins nothing, and the text before it is read to
the same tokens if it stands alone. Another continuation behind the character can only help if it
makes one of those tokens longer, so that the character becomes a part of it. -/

namespace ClockCalc.Token

/-- The token begins before the place and ends behind it. -/
def Spans (t : Token) (position : Nat) : Prop :=
  t.position < position ∧ position < t.position + t.lexeme.utf8ByteSize

variable {kind : Kind} {lexeme before rest : List Char} {c : Char} {ts : List Token}
  {position : Nat}

/-- With more of the text behind it a token stays the longest, or a longer one goes beyond what was
there. -/
theorem Longest.stays_or_grows (h : Longest kind lexeme before) (rest : List Char) :
    Longest kind lexeme (before ++ rest) ∨
      ∃ kind' lexeme', Longest kind' lexeme' (before ++ rest) ∧
        before.length < lexeme'.length := by
  have hbegins : lexeme <+: before ++ rest := h.begins.trans (List.prefix_append _ _)
  obtain ⟨kind', lexeme', hl⟩ := exists_longest?_of_spells h.spells hbegins
  have hlong : Longest kind' lexeme' (before ++ rest) := longest_of_longest? hl
  by_cases hle : lexeme'.length ≤ before.length
  · have hp : lexeme' <+: before :=
      List.prefix_of_prefix_length_le hlong.begins (List.prefix_append _ _) hle
    obtain ⟨rfl, rfl⟩ := h.unique (hlong.of_prefix hp (List.prefix_append _ _))
    exact .inl hlong
  · exact .inr ⟨kind', lexeme', hlong, Nat.lt_of_not_le hle⟩

theorem bytes_lt_of_prefix (hp : before <+: lexeme) (hlt : before.length < lexeme.length) :
    bytes before < bytes lexeme := by
  obtain ⟨more, rfl⟩ := hp
  have hmore : more ≠ [] := by
    rintro rfl
    simp at hlt
  have := bytes_pos hmore
  rw [bytes_append]
  omega

/-- By induction on the tokens before the character: as long as each of them is still the longest,
the scanner comes to the character again. -/
theorem Munches.stops_or_spans (h : Munches position before ts) (hc : IsForeign c)
    (rest : List Char) :
    Token.scanFrom position 0 (before ++ c :: rest) = ⟨ts, some ⟨c, position + bytes before⟩⟩ ∨
      ∃ t ∈ (Token.scanFrom position 0 (before ++ c :: rest)).tokens,
        t.Spans (position + bytes before) := by
  induction h with
  | done =>
    rw [List.nil_append, scanFrom_foreign hc, bytes_nil]
    exact .inl rfl
  | @space position cs ts h ih =>
    rw [List.cons_append, scanFrom_space, bytes_cons, utf8Size_space, ← Nat.add_assoc]
    exact ih
  | @token position kind lexeme cs ts hl h ih =>
    rcases hl.stays_or_grows (c :: rest) with hsame | ⟨kind', lexeme', hgrown, hlength⟩
    · rw [List.append_assoc] at hsame ⊢
      rw [scanFrom_token _ hsame, bytes_append, ← Nat.add_assoc]
      rcases ih with hstop | ⟨t, ht, hspans⟩
      · exact .inl (by rw [hstop])
      · exact .inr ⟨t, List.mem_cons_of_mem _ ht, hspans⟩
    · have hbefore : lexeme ++ cs <+: lexeme' :=
        List.prefix_of_prefix_length_le (List.prefix_append _ _) hgrown.begins
          (Nat.le_of_lt hlength)
      have hbytes : bytes (lexeme ++ cs) < bytes lexeme' := bytes_lt_of_prefix hbefore hlength
      have hpos : 0 < bytes (lexeme ++ cs) := bytes_pos (by simp [hl.spells.ne_nil])
      obtain ⟨rest', hrest⟩ := hgrown.begins
      rw [← hrest] at hgrown ⊢
      rw [scanFrom_token _ hgrown]
      refine .inr ⟨_, List.mem_cons_self, ?_, ?_⟩
      · exact Nat.lt_add_of_pos_right hpos
      · exact Nat.add_lt_add_left hbytes position

/-- Where the scanner stops there stands a character with which neither a token nor a space begins.
What it has read by then are the tokens of the text before that place. Whatever else follows the
character, the scanner stops there again, or it finds a token that spans the place. -/
theorem stop_is_local {text : String} {stop : Unreadable} (h : ofText text = .error stop) :
    ∃ before after, text = before ++ String.singleton stop.fragment ++ after ∧
      before.utf8ByteSize = stop.position ∧ stop.fragment ≠ ' ' ∧
      (∀ kind lexeme, Spells kind lexeme →
        ¬ lexeme <+: (String.singleton stop.fragment ++ after).toList) ∧
      ofText before = .ok (scan text).tokens ∧
      ∀ rest, ofText (before ++ String.singleton stop.fragment ++ rest) = .error stop ∨
        ∃ t ∈ (scan (before ++ String.singleton stop.fragment ++ rest)).tokens,
          t.Spans stop.position := by
  obtain ⟨hforeign, before, after, htext, hpos, hm⟩ := munches_of_stop (ofText_eq_error_iff.1 h)
  rw [Nat.zero_add] at hpos
  have hchars (rest : String) :
      (String.ofList before ++ String.singleton stop.fragment ++ rest).toList =
        before ++ stop.fragment :: rest.toList := by simp
  refine ⟨String.ofList before, String.ofList after, ?_, hpos, hforeign.space, ?_, ?_, ?_⟩
  · rw [← String.toList_inj, hchars, String.toList_ofList, htext]
  · intro kind lexeme hs
    simpa using hforeign.not_begins hs
  · rw [ofText_eq_ok_iff_munches, String.toList_ofList]
    exact hm
  · intro rest
    have hgoes := hm.stops_or_spans hforeign rest.toList
    rw [Nat.zero_add, hpos, ← hchars] at hgoes
    refine hgoes.imp_left fun hstop => ?_
    rw [ofText_eq_error_iff, scan, hstop]

theorem stop_is_local_behind_colon :
    ∃ stop : Unreadable, stop = ⟨':', 8⟩ ∧ ofText "12 + 1:2:é" = .error stop ∧
    ∃ before after, "12 + 1:2:é" = before ++ String.singleton stop.fragment ++ after ∧
      before.utf8ByteSize = stop.position ∧ stop.fragment ≠ ' ' ∧
      (∀ kind lexeme, Spells kind lexeme →
        ¬ lexeme <+: (String.singleton stop.fragment ++ after).toList) ∧
      ofText before = .ok (scan "12 + 1:2:é").tokens ∧
      ∀ rest, ofText (before ++ String.singleton stop.fragment ++ rest) = .error stop ∨
        ∃ t ∈ (scan (before ++ String.singleton stop.fragment ++ rest)).tokens,
          t.Spans stop.position :=
  have h : ofText "12 + 1:2:é" = .error ⟨':', 8⟩ := rfl
  ⟨_, rfl, h, stop_is_local h⟩

end ClockCalc.Token

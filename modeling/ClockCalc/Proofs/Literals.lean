import ClockCalc.Postfix.Machine
import ClockCalc.Proofs.Scanning

/-! A literal is read twice: by the form of its token when the expression is read, and by its text
alone when a listing is run. The second reading sees a colon or a point where the first was told
of it, so the kind is the same, and the value too unless a literal said to be decimal lacks its
point. No written form of a token is such a literal. -/

namespace ClockCalc

namespace Numeral

theorem not_mem_of_read? {c : Char} (hc : c.isDigit = false) {cs : List Char} {n : Nat}
    (h : read? cs = some n) : c ∉ cs := by
  unfold read? at h
  split at h
  · rename_i hd
    intro hm
    have := List.all_eq_true.1 hd.2 c hm
    simp [hc] at this
  · cases h

theorem not_mem_of_readSigned? {c : Char} (hc : c.isDigit = false) (hm : c ≠ '-') (hp : c ≠ '+')
    {cs : List Char} {n : Int} (h : readSigned? cs = some n) : c ∉ cs := by
  unfold readSigned? at h
  split at h
  · simp only [Option.map_eq_some_iff, Option.bind_eq_bind, Option.bind_eq_some_iff] at h
    obtain ⟨_, ⟨k, hk, -⟩, -⟩ := h
    simp [hm, not_mem_of_read? hc hk]
  · simp only [Option.map_eq_some_iff, Option.bind_eq_bind, Option.bind_eq_some_iff] at h
    obtain ⟨_, ⟨k, hk, -⟩, -⟩ := h
    simp [hp, not_mem_of_read? hc hk]
  · simp only [Option.map_eq_some_iff, Option.bind_eq_bind, Option.bind_eq_some_iff] at h
    obtain ⟨_, ⟨k, hk, -⟩, -⟩ := h
    exact not_mem_of_read? hc hk

theorem not_mem_of_readWord? {c : Char} (hc : c.isDigit = false) (hm : c ≠ '-') (hp : c ≠ '+')
    {cs : List Char} {n : Word} (h : readWord? cs = some n) : c ∉ cs := by
  obtain ⟨k, hk, -⟩ := Option.bind_eq_some_iff.1 h
  exact not_mem_of_readSigned? hc hm hp hk

end Numeral

namespace Binary64

theorem colon_not_mem_of_readExponent? {cs : List Char} {e : Int}
    (h : readExponent? cs = some e) : ':' ∉ cs := by
  unfold readExponent? at h
  split at h
  · simp
  · split at h
    · rename_i c cs hc
      have hm : ':' ∉ cs :=
        Numeral.not_mem_of_readSigned? (by decide) (by decide) (by decide) h
      rcases hc with rfl | rfl <;> simpa using hm
    · cases h

theorem colon_not_mem_takeWhile (cs : List Char) : ':' ∉ cs.takeWhile Char.isDigit := by
  intro h
  exact absurd (List.all_eq_true.1 List.all_takeWhile _ h) (by decide)

/-- The runs of digits hold no colon, nor does the exponent; a point is none. -/
theorem colon_not_mem_of_readMagnitude? {cs : List Char} {d : Decimal}
    (h : readMagnitude? cs = some d) : ':' ∉ cs := by
  have not_mem_append {r : List Char} (hr : ':' ∉ r.dropWhile Char.isDigit) : ':' ∉ r := by
    rw [← List.takeWhile_append_dropWhile (p := Char.isDigit) (l := r), List.mem_append, not_or]
    exact ⟨colon_not_mem_takeWhile r, hr⟩
  apply not_mem_append
  simp only [readMagnitude?] at h
  split at h
  · rename_i rest hpoint
    split at h
    · cases h
    · obtain ⟨e, he, -⟩ := Option.map_eq_some_iff.1 h
      rw [hpoint]
      simpa using not_mem_append (colon_not_mem_of_readExponent? he)
  · split at h
    · cases h
    · obtain ⟨e, he, -⟩ := Option.map_eq_some_iff.1 h
      exact colon_not_mem_of_readExponent? he

theorem colon_not_mem_of_readUnsigned? {negative : Bool} {cs : List Char} {x : Binary64}
    (h : readUnsigned? negative cs = some x) : ':' ∉ cs := by
  -- a name of a value without digits holds no colon in any case
  have hname : ':' ∈ cs → ':' ∈ cs.map Char.toLower := fun hm =>
    List.mem_map.2 ⟨':', hm, by decide⟩
  have hinfinity : ∀ name ∈ infinityNames, ':' ∉ name := by decide
  simp only [readUnsigned?] at h
  split at h
  · rename_i hn
    exact fun hm => hinfinity _ hn (hname hm)
  · split at h
    · rename_i hn
      rw [hn] at hname
      exact fun hm => absurd (hname hm) (by decide)
    · obtain ⟨d, hd, -⟩ := Option.map_eq_some_iff.1 h
      exact colon_not_mem_of_readMagnitude? hd

theorem colon_not_mem_of_read? {cs : List Char} {x : Binary64} (h : read? cs = some x) :
    ':' ∉ cs := by
  unfold read? at h
  split at h <;> simpa using colon_not_mem_of_readUnsigned? h

end Binary64

namespace Duration

theorem colon_mem_of_readMagnitude? {cs : List Char} {d : Duration}
    (h : readMagnitude? cs = some d) : ':' ∈ cs := by
  refine Decidable.byContradiction fun hm => ?_
  unfold readMagnitude? at h
  rw [List.splitOn_eq_singleton hm] at h
  cases hp : readPart? cs <;> simp [hp] at h

theorem colon_mem_of_read? {cs : List Char} {d : Duration} (h : read? cs = some d) :
    ':' ∈ cs := by
  unfold read? at h
  split at h
  · obtain ⟨m, hm, -⟩ := Option.bind_eq_some_iff.1 h
    exact List.mem_cons_of_mem _ (colon_mem_of_readMagnitude? hm)
  · exact colon_mem_of_readMagnitude? h

end Duration

/-- A literal that is said to be decimal has a point. -/
def Token.HasPoint (t : Token) : Prop := t.kind = .literal .decimal → '.' ∈ t.lexeme.toList

namespace Value

/-- A text that has a value as a literal of some form has one of the same kind by itself. -/
theorem exists_read?_of_readForm? {form : LiteralForm} {cs : List Char} {v : Value}
    (h : readForm? form cs = some v) :
    ∃ w, read? cs = some w ∧ w.kind = v.kind ∧ ((form = .decimal → '.' ∈ cs) → w = v) := by
  cases form with
  | integer =>
    obtain ⟨n, hn, rfl⟩ := Option.map_eq_some_iff.1 h
    have hcolon : ':' ∉ cs := Numeral.not_mem_of_readWord? (by decide) (by decide) (by decide) hn
    have hpoint : '.' ∉ cs := Numeral.not_mem_of_readWord? (by decide) (by decide) (by decide) hn
    exact ⟨.number (.integer n), by simp [read?, Number.read?, hcolon, hpoint, hn], rfl,
      fun _ => rfl⟩
  | decimal =>
    obtain ⟨x, hx, rfl⟩ := Option.map_eq_some_iff.1 h
    obtain ⟨hx, -⟩ := Option.filter_eq_some_iff.1 hx
    have hcolon : ':' ∉ cs := Binary64.colon_not_mem_of_read? hx
    by_cases hpoint : '.' ∈ cs
    · exact ⟨.number (.real x), by simp [read?, Number.read?, hcolon, hpoint, hx], rfl,
        fun _ => rfl⟩
    -- without a point the second reading prefers an integer
    · cases hn : Numeral.readWord? cs with
      | some n =>
        exact ⟨.number (.integer n), by simp [read?, Number.read?, hcolon, hpoint, hn], rfl,
          fun hd => absurd (hd rfl) hpoint⟩
      | none =>
        exact ⟨.number (.real x), by simp [read?, Number.read?, hcolon, hpoint, hn, hx], rfl,
          fun _ => rfl⟩
  | time =>
    obtain ⟨d, hd, rfl⟩ := Option.map_eq_some_iff.1 h
    have hcolon : ':' ∈ cs := Duration.colon_mem_of_read? hd
    exact ⟨.time d, by simp [read?, hcolon, hd], rfl, fun _ => rfl⟩

theorem readForm?_of_ofLiteral {t : Token} {v : Value} (h : ofLiteral t = .ok v) :
    ∃ form, t.kind = .literal form ∧ readForm? form t.lexeme.toList = some v := by
  unfold ofLiteral at h
  split at h
  · rename_i form hk
    split at h
    · rename_i w hw
      cases h
      exact ⟨form, hk, hw⟩
    · cases h
  · cases h

end Value

/-- The machine reads the text of a literal as a value of the same kind, and as the same value if
the literal has the point it should have. -/
theorem Machine.exists_operand_of_ofLiteral {t : Token} {v : Value}
    (h : Value.ofLiteral t = .ok v) :
    ∃ w, operand t.lexeme = .ok w ∧ w.kind = v.kind ∧ (t.HasPoint → w = v) := by
  obtain ⟨form, hk, hv⟩ := Value.readForm?_of_ofLiteral h
  obtain ⟨w, hw, hkind, hsame⟩ := Value.exists_read?_of_readForm? hv
  refine ⟨w, by simp [operand, hw], hkind, fun hp => hsame fun hd => ?_⟩
  subst hd
  exact hp hk

namespace Token

theorem Spells.hasPoint {t : Token} (h : Spells t.kind t.lexeme.toList) : t.HasPoint := by
  intro hk
  rw [hk] at h
  generalize t.lexeme.toList = cs at h ⊢
  cases h with
  | decimal hd hf => simp

/-- The scanner finds every decimal literal by its point. -/
theorem hasPoint_of_ofText {text : String} {ts : List Token} (h : ofText text = .ok ts) :
    ∀ t ∈ ts, t.HasPoint :=
  fun _ ht => (spells_of_ofText h ht).hasPoint

end Token

end ClockCalc

import ClockCalc.Token.Scan

/-! Scanning is maximal munch. What a token may look like is given by its written forms alone, and
a text falls into tokens if taking spaces and longest tokens off its start uses up all of it. The
scanner finds exactly these tokens: nothing but spaces lies between them, and each stands where
its position says. -/

namespace ClockCalc.Token

/-- One or more digits. -/
def IsRun (ds : List Char) : Prop := ds ≠ [] ∧ ∀ c ∈ ds, c.isDigit = true

/-- The written forms of tokens: `M:S` and `H:M:S`, `D.D`, `D`, and the symbols. -/
inductive Spells : Kind → List Char → Prop
  | minutes {m s} : IsRun m → IsRun s → Spells (.literal .time) (m ++ ':' :: s)
  | hours {h m s} : IsRun h → IsRun m → IsRun s →
      Spells (.literal .time) (h ++ ':' :: (m ++ ':' :: s))
  | decimal {d f} : IsRun d → IsRun f → Spells (.literal .decimal) (d ++ '.' :: f)
  | integer {d} : IsRun d → Spells (.literal .integer) d
  | operator (op : BinaryOp) : Spells (.operator op) op.symbol.toList
  | opening : Spells .openGroup ['(']
  | closing : Spells .closeGroup [')']

/-- The text begins with this token and with no longer one. -/
structure Longest (kind : Kind) (lexeme cs : List Char) : Prop where
  spells : Spells kind lexeme
  begins : lexeme <+: cs
  longest : ∀ kind' lexeme', Spells kind' lexeme' → lexeme' <+: cs →
    lexeme'.length ≤ lexeme.length

def bytes (cs : List Char) : Nat := (String.ofList cs).utf8ByteSize

/-- A text from a byte offset on is used up by its tokens, each the longest, and by spaces. -/
inductive Munches : Nat → List Char → List Token → Prop
  | done {position} : Munches position [] []
  | space {position cs ts} : Munches (position + 1) cs ts → Munches position (' ' :: cs) ts
  | token {position kind lexeme rest ts} : Longest kind lexeme (lexeme ++ rest) →
      Munches (position + bytes lexeme) rest ts →
      Munches position (lexeme ++ rest) (⟨kind, String.ofList lexeme, position⟩ :: ts)

@[simp] theorem bytes_nil : bytes [] = 0 := by simp [bytes]

@[simp] theorem bytes_cons (c : Char) (cs : List Char) :
    bytes (c :: cs) = c.utf8Size + bytes cs := by
  simp [bytes]

@[simp] theorem bytes_append (as bs : List Char) : bytes (as ++ bs) = bytes as + bytes bs := by
  simp [bytes]

theorem bytes_pos {cs : List Char} (h : cs ≠ []) : 0 < bytes cs := by
  obtain ⟨c, cs, rfl⟩ := List.exists_cons_of_ne_nil h
  have := c.utf8Size_pos
  rw [bytes_cons]
  omega

section Runs

variable {run ds rest cs more : List Char} {c mark : Char}

theorem isDigit_of_mem_takeWhile (h : c ∈ cs.takeWhile Char.isDigit) : c.isDigit = true :=
  List.all_eq_true.1 List.all_takeWhile c h

theorem IsRun.not_mem (h : IsRun run) (hc : c.isDigit = false) : c ∉ run := fun hm => by
  simp [h.2 c hm] at hc

theorem isRun_takeWhile (h : cs.takeWhile Char.isDigit ≠ []) : IsRun (cs.takeWhile Char.isDigit) :=
  ⟨h, fun _ hc => isDigit_of_mem_takeWhile hc⟩

theorem IsRun.prefix_takeWhile (h : IsRun run) (hp : run <+: cs) :
    run <+: cs.takeWhile Char.isDigit := by
  obtain ⟨rest, rfl⟩ := hp
  rw [List.takeWhile_append_of_pos h.2]
  exact List.prefix_append _ _

/-- A run that something else follows is all the digits there are. -/
theorem IsRun.takeWhile_append (h : IsRun run) (hc : c.isDigit = false) :
    (run ++ c :: rest).takeWhile Char.isDigit = run := by
  rw [List.takeWhile_append_of_pos h.2]
  simp [hc]

theorem IsRun.dropWhile_append (h : IsRun run) (hc : c.isDigit = false) :
    (run ++ c :: rest).dropWhile Char.isDigit = c :: rest := by
  rw [List.dropWhile_append_of_pos h.2]
  simp [hc]

theorem IsRun.takeWhile_self (h : IsRun run) : run.takeWhile Char.isDigit = run := by
  simpa using @List.takeWhile_append_of_pos Char Char.isDigit run [] h.2

theorem IsRun.dropWhile_self (h : IsRun run) : run.dropWhile Char.isDigit = [] := by
  simpa using @List.dropWhile_append_of_pos Char Char.isDigit run [] h.2

theorem markedRun_cases (mark : Char) (cs : List Char) :
    markedRun mark cs = [] ∨ ∃ run, IsRun run ∧ markedRun mark cs = mark :: run := by
  cases cs with
  | nil => exact .inl rfl
  | cons c cs =>
    by_cases h : c = mark ∧ cs.takeWhile Char.isDigit ≠ []
    · refine .inr ⟨_, isRun_takeWhile h.2, ?_⟩
      rw [markedRun, if_pos h, h.1]
    · exact .inl (if_neg h)

theorem markedRun_prefix (mark : Char) (cs : List Char) : markedRun mark cs <+: cs := by
  cases cs with
  | nil => exact List.nil_prefix
  | cons c cs =>
    simp only [markedRun]
    split
    · exact List.cons_prefix_cons.2 ⟨rfl, List.takeWhile_prefix _⟩
    · exact List.nil_prefix

/-- A mark and digits after it are part of the marked run. -/
theorem IsRun.length_le_markedRun (h : IsRun run) (mark : Char) (rest : List Char) :
    run.length + 1 ≤ (markedRun mark (mark :: (run ++ rest))).length := by
  have hrun := h.prefix_takeWhile (List.prefix_append run rest)
  have hne : (run ++ rest).takeWhile Char.isDigit ≠ [] := fun hnil =>
    h.1 (by simpa [hnil] using hrun)
  simpa [markedRun, hne] using hrun.length_le

theorem IsRun.markedRun_ne_nil (h : IsRun run) (mark : Char) (rest : List Char) :
    markedRun mark (mark :: (run ++ rest)) ≠ [] :=
  List.ne_nil_of_length_pos (Nat.lt_of_lt_of_le (Nat.succ_pos _) (h.length_le_markedRun mark rest))

theorem IsRun.markedRun_append (h : IsRun run) (hc : c.isDigit = false) :
    markedRun mark (mark :: (run ++ c :: rest)) = mark :: run := by
  simp [markedRun, h.takeWhile_append hc, h.1]

theorem IsRun.markedRun_self (h : IsRun run) : markedRun mark (mark :: run) = mark :: run := by
  simp [markedRun, h.takeWhile_self, h.1]

theorem markedRun_of_ne (h : c ≠ mark) : markedRun mark (c :: cs) = [] := by
  simp [markedRun, h]

end Runs

section Literals

variable {cs lexeme : List Char} {form : LiteralForm} {kind : Kind}

/-- What is taken for a literal is one. -/
theorem spells_longestLiteral (h : cs.takeWhile Char.isDigit ≠ []) :
    Spells (.literal (longestLiteral cs).1) (longestLiteral cs).2 ∧
      (longestLiteral cs).2 <+: cs := by
  have hwhole := isRun_takeWhile h
  have hcs := List.takeWhile_append_dropWhile (p := Char.isDigit) (l := cs)
  generalize hw : cs.takeWhile Char.isDigit = whole at *
  generalize hr : cs.dropWhile Char.isDigit = rest at *
  simp only [longestLiteral, hw, hr]
  rw [← hcs]
  rcases markedRun_cases ':' rest with hs | ⟨second, hsecond, hs⟩
  · rcases markedRun_cases '.' rest with hf | ⟨fraction, hfraction, hf⟩
    · simpa [hs, hf] using Spells.integer hwhole
    · have hp := markedRun_prefix '.' rest
      rw [hf] at hp
      simpa [hs, hf, List.prefix_append_right_inj] using ⟨Spells.decimal hwhole hfraction, hp⟩
  · obtain ⟨after, hafter⟩ := markedRun_prefix ':' rest
    rw [hs] at hafter
    rw [hs, ← hafter, List.drop_left]
    have hp := markedRun_prefix ':' after
    rcases markedRun_cases ':' after with ht | ⟨third, hthird, ht⟩
    · simpa [ht] using Spells.minutes hwhole hsecond
    · rw [ht] at hp
      simpa [ht, List.prefix_append_right_inj] using ⟨Spells.hours hwhole hsecond hthird, hp⟩

theorem colon_not_isDigit : ':'.isDigit = false := rfl

theorem point_not_isDigit : '.'.isDigit = false := rfl

/-- No token at the start of the text is longer than what is taken for a literal. -/
theorem length_le_longestLiteral {c : Char} (hs : Spells kind lexeme)
    (hp : lexeme <+: c :: cs) (hc : c.isDigit = true) :
    lexeme.length ≤ (longestLiteral (c :: cs)).2.length := by
  have symbol {s : Char} (hsym : [s] <+: c :: cs) (hd : s.isDigit = false) : False := by
    obtain ⟨rfl, -⟩ := List.cons_prefix_cons.1 hsym
    simp [hd] at hc
  generalize c :: cs = text at *
  cases hs with
  | integer hd =>
    have hle := (hd.prefix_takeWhile hp).length_le
    simp only [longestLiteral]
    split
    · simp only [List.length_append]
      omega
    · split
      · simp only [List.length_append]
        omega
      · exact hle
  | @minutes m s hm hs =>
    obtain ⟨rest, rfl⟩ := hp
    have hle := hs.length_le_markedRun ':' rest
    rw [List.append_assoc, List.cons_append]
    simp only [longestLiteral, hm.takeWhile_append colon_not_isDigit,
      hm.dropWhile_append colon_not_isDigit, if_pos (hs.markedRun_ne_nil ':' rest),
      List.length_append, List.length_cons]
    omega
  | @hours h m s hh hm hs =>
    obtain ⟨rest, rfl⟩ := hp
    have hle := hs.length_le_markedRun ':' rest
    -- the second run ends where the second colon stands
    have hsecond : markedRun ':' (':' :: (m ++ ':' :: (s ++ rest))) = ':' :: m :=
      hm.markedRun_append colon_not_isDigit
    rw [List.append_assoc, List.cons_append, List.append_assoc, List.cons_append]
    simp only [longestLiteral, hh.takeWhile_append colon_not_isDigit,
      hh.dropWhile_append colon_not_isDigit, hsecond, ne_eq, reduceCtorEq, not_false_eq_true,
      ite_true, List.length_append, List.length_cons, List.drop_succ_cons, List.drop_left]
    omega
  | @decimal d f hd hf =>
    obtain ⟨rest, rfl⟩ := hp
    have hle := hf.length_le_markedRun '.' rest
    have hcolon : markedRun ':' ('.' :: (f ++ rest)) = [] := markedRun_of_ne (by decide)
    rw [List.append_assoc, List.cons_append]
    simp only [longestLiteral, hd.takeWhile_append point_not_isDigit,
      hd.dropWhile_append point_not_isDigit, hcolon, ne_eq, not_true_eq_false, ite_false,
      if_pos (hf.markedRun_ne_nil '.' rest), List.length_append, List.length_cons]
    omega
  | operator op => cases op <;> exact (symbol hp rfl).elim
  | opening => exact (symbol hp rfl).elim
  | closing => exact (symbol hp rfl).elim

theorem Spells.ne_nil (h : Spells kind lexeme) : lexeme ≠ [] := by
  cases h with
  | minutes hm hs => simp
  | hours hh hm hs => simp
  | decimal hd hf => simp
  | integer hd => exact hd.1
  | operator op => cases op <;> decide
  | opening => decide
  | closing => decide

theorem Spells.kind_ne_blank (h : Spells kind lexeme) : kind ≠ .blank := by
  cases h <;> exact Kind.noConfusion

theorem Spells.eq_symbol {op : BinaryOp} (h : Spells (.operator op) lexeme) :
    lexeme = op.symbol.toList := by
  cases h
  rfl

theorem IsRun.longest?_append {run rest : List Char} (h : IsRun run) :
    longest? (run ++ rest) = some (.literal (longestLiteral (run ++ rest)).1,
      (longestLiteral (run ++ rest)).2) := by
  obtain ⟨c, cs, rfl⟩ := List.exists_cons_of_ne_nil h.1
  have hc : c.isDigit = true := h.2 c (by simp)
  simp [longest?, hc]

/-- A token is the longest one at the start of its own text. -/
theorem Spells.longest?_self (h : Spells kind lexeme) : longest? lexeme = some (kind, lexeme) := by
  cases h with
  | @minutes m s hm hs =>
    rw [hm.longest?_append]
    simp only [longestLiteral, hm.takeWhile_append colon_not_isDigit,
      hm.dropWhile_append colon_not_isDigit, hs.markedRun_self]
    simp [markedRun]
  | @hours h m s hh hm hs =>
    rw [hh.longest?_append]
    simp [longestLiteral, hh.takeWhile_append colon_not_isDigit,
      hh.dropWhile_append colon_not_isDigit, hm.markedRun_append colon_not_isDigit,
      hs.markedRun_self]
  | @decimal d f hd hf =>
    rw [hd.longest?_append]
    simp [longestLiteral, hd.takeWhile_append point_not_isDigit,
      hd.dropWhile_append point_not_isDigit, hf.markedRun_self, markedRun_of_ne]
  | integer hd =>
    rw [← List.append_nil lexeme, hd.longest?_append]
    simp [longestLiteral, hd.takeWhile_self, hd.dropWhile_self, markedRun]
  | operator op => cases op <;> rfl
  | opening => rfl
  | closing => rfl

theorem IsRun.isDigit_of_prefix {run cs : List Char} {c : Char} (h : IsRun run)
    (hp : run <+: c :: cs) : c.isDigit = true := by
  obtain ⟨d, ds, rfl⟩ := List.exists_cons_of_ne_nil h.1
  obtain ⟨rfl, -⟩ := List.cons_prefix_cons.1 hp
  exact h.2 d (by simp)

/-- A token that does not begin with a digit is a symbol. -/
theorem Spells.symbolKind?_of_prefix {c : Char} (h : Spells kind lexeme) (hp : lexeme <+: c :: cs)
    (hc : c.isDigit = false) : lexeme = [c] ∧ symbolKind? c = some kind := by
  have literal {run rest : List Char} (hr : IsRun run) (hp : run ++ rest <+: c :: cs) : False := by
    have := hr.isDigit_of_prefix ((List.prefix_append run rest).trans hp)
    simp [hc] at this
  have symbol {s : Char} (hp : [s] <+: c :: cs) : s = c := (List.cons_prefix_cons.1 hp).1
  cases h with
  | minutes hm hs => exact (literal hm hp).elim
  | hours hh hm hs => exact (literal hh hp).elim
  | decimal hd hf => exact (literal hd hp).elim
  | integer hd => exact (literal hd (by simpa using hp : lexeme ++ [] <+: c :: cs)).elim
  | operator op => cases op <;> obtain rfl := symbol hp <;> exact ⟨rfl, rfl⟩
  | opening => obtain rfl := symbol hp; exact ⟨rfl, rfl⟩
  | closing => obtain rfl := symbol hp; exact ⟨rfl, rfl⟩

theorem spells_of_symbolKind? {c : Char} (h : symbolKind? c = some kind) : Spells kind [c] := by
  unfold symbolKind? at h
  split at h
  · cases h; exact .operator .add
  · cases h; exact .operator .sub
  · cases h; exact .operator .mul
  · cases h; exact .operator .div
  · cases h; exact .operator .pow
  · cases h; exact .opening
  · cases h; exact .closing
  · cases h

end Literals

section Munching

variable {cs lexeme lexeme' : List Char} {kind kind' : Kind}

theorem longest_of_longest? (h : longest? cs = some (kind, lexeme)) : Longest kind lexeme cs := by
  cases cs with
  | nil => cases h
  | cons c cs =>
    cases hc : c.isDigit with
    | true =>
      simp only [longest?, hc, ite_true, Option.some.injEq, Prod.mk.injEq] at h
      obtain ⟨rfl, rfl⟩ := h
      have hwhole : (c :: cs).takeWhile Char.isDigit ≠ [] := by simp [hc]
      obtain ⟨hs, hp⟩ := spells_longestLiteral hwhole
      exact ⟨hs, hp, fun kind' lexeme' hs' hp' => length_le_longestLiteral hs' hp' hc⟩
    | false =>
      simp only [longest?, hc, Bool.false_eq_true, ite_false] at h
      obtain ⟨k, hk, hkl⟩ := Option.map_eq_some_iff.1 h
      cases hkl
      refine ⟨spells_of_symbolKind? hk, by simp, fun kind' lexeme' hs' hp' => ?_⟩
      obtain ⟨rfl, -⟩ := hs'.symbolKind?_of_prefix hp' hc
      exact Nat.le_refl _

theorem exists_longest?_of_spells (h : Spells kind lexeme) (hp : lexeme <+: cs) :
    ∃ kind' lexeme', longest? cs = some (kind', lexeme') := by
  cases cs with
  | nil => exact absurd (List.prefix_nil.1 hp) h.ne_nil
  | cons c cs =>
    cases hc : c.isDigit with
    | true =>
      exact ⟨.literal (longestLiteral (c :: cs)).1, (longestLiteral (c :: cs)).2,
        by simp [longest?, hc]⟩
    | false =>
      obtain ⟨-, hk⟩ := h.symbolKind?_of_prefix hp hc
      exact ⟨kind, [c], by simp [longest?, hc, hk]⟩

theorem Longest.unique (h : Longest kind lexeme cs) (h' : Longest kind' lexeme' cs) :
    kind = kind' ∧ lexeme = lexeme' := by
  have hle := h'.longest kind lexeme h.spells h.begins
  have hle' := h.longest kind' lexeme' h'.spells h'.begins
  have hp := List.prefix_of_prefix_length_le h.begins h'.begins hle
  obtain rfl := hp.eq_of_length (Nat.le_antisymm hle hle')
  have hk := h.spells.longest?_self
  rw [h'.spells.longest?_self] at hk
  cases hk
  exact ⟨rfl, rfl⟩

theorem longest?_eq_some_iff : longest? cs = some (kind, lexeme) ↔ Longest kind lexeme cs := by
  refine ⟨longest_of_longest?, fun h => ?_⟩
  obtain ⟨kind', lexeme', h'⟩ := exists_longest?_of_spells h.spells h.begins
  obtain ⟨rfl, rfl⟩ := h.unique (longest_of_longest? h')
  exact h'

/-- The characters of a token that has been taken are passed over. -/
theorem scanFrom_append (position : Nat) (lexeme rest : List Char) :
    scanFrom position lexeme.length (lexeme ++ rest) =
      scanFrom (position + bytes lexeme) 0 rest := by
  induction lexeme generalizing position with
  | nil => simp
  | cons c lexeme ih => simp [scanFrom, ih, Nat.add_assoc]

theorem utf8Size_space : ' '.utf8Size = 1 := rfl

theorem not_longest_of_space (h : Longest kind lexeme (' ' :: cs)) : False := by
  obtain ⟨-, hk⟩ := h.spells.symbolKind?_of_prefix h.begins rfl
  cases hk

/-- Where a token begins the scanner takes it and goes on behind it. -/
theorem scanFrom_token (position : Nat) {rest : List Char}
    (h : Longest kind lexeme (lexeme ++ rest)) :
    scanFrom position 0 (lexeme ++ rest) =
      { scanFrom (position + bytes lexeme) 0 rest with
        tokens := ⟨kind, String.ofList lexeme, position⟩ ::
          (scanFrom (position + bytes lexeme) 0 rest).tokens } := by
  have hl := longest?_eq_some_iff.2 h
  obtain ⟨c, lexeme, rfl⟩ := List.exists_cons_of_ne_nil h.spells.ne_nil
  have hspace : c ≠ ' ' := by
    rintro rfl
    exact not_longest_of_space h
  rw [List.cons_append] at hl ⊢
  simp only [scanFrom, hspace, ite_false, hl, List.length_cons, Nat.add_sub_cancel,
    scanFrom_append, bytes_cons, Nat.add_assoc]

/-- Nothing begins with the character: no token, and no space between tokens. -/
structure IsForeign (c : Char) : Prop where
  digit : c.isDigit = false
  symbol : symbolKind? c = none
  space : c ≠ ' '

theorem isForeign_of_longest? {c : Char} (h : longest? (c :: cs) = none) (hspace : c ≠ ' ') :
    IsForeign c := by
  cases hc : c.isDigit with
  | true => simp [longest?, hc] at h
  | false => exact ⟨hc, by simpa [longest?, hc] using h, hspace⟩

theorem IsForeign.not_begins {c : Char} (h : IsForeign c) (hs : Spells kind lexeme) :
    ¬ lexeme <+: c :: cs := by
  intro hp
  obtain ⟨-, hk⟩ := hs.symbolKind?_of_prefix hp h.digit
  rw [h.symbol] at hk
  cases hk

theorem scanFrom_space (position : Nat) (cs : List Char) :
    scanFrom position 0 (' ' :: cs) = scanFrom (position + 1) 0 cs := by
  simp [scanFrom, utf8Size_space]

theorem scanFrom_foreign {c : Char} (h : IsForeign c) (position : Nat) (cs : List Char) :
    scanFrom position 0 (c :: cs) = ⟨[], some ⟨c, position⟩⟩ := by
  have hl : longest? (c :: cs) = none := by simp [longest?, h.digit, h.symbol]
  simp [scanFrom, h.space, hl]

/-- A text comes apart as the scanner goes through it: a space, a token, or a foreign character at
which it stops. -/
@[elab_as_elim]
theorem scan_induction {motive : List Char → Prop} (cs : List Char) (nil : motive [])
    (space : ∀ cs, motive cs → motive (' ' :: cs))
    (token : ∀ kind lexeme rest, Longest kind lexeme (lexeme ++ rest) → motive rest →
      motive (lexeme ++ rest))
    (foreign : ∀ c cs, IsForeign c → motive (c :: cs)) : motive cs := by
  induction hn : cs.length using Nat.strongRecOn generalizing cs with
  | _ n ih =>
    subst hn
    cases cs with
    | nil => exact nil
    | cons c cs =>
      by_cases hspace : c = ' '
      · subst hspace
        exact space cs (ih _ (Nat.lt_succ_self _) cs rfl)
      · cases hl : longest? (c :: cs) with
        | none => exact foreign c cs (isForeign_of_longest? hl hspace)
        | some found =>
          have hlong : Longest found.1 found.2 (c :: cs) := longest_of_longest? hl
          obtain ⟨rest, hrest⟩ := hlong.begins
          have hpos := List.length_pos_iff.2 hlong.spells.ne_nil
          have hlt : rest.length < (c :: cs).length := by
            rw [← hrest, List.length_append]
            omega
          rw [← hrest] at hlong ⊢
          exact token found.1 found.2 rest hlong (ih _ hlt rest rfl)

/-- Wherever it begins, the scanner makes tokens of the written forms alone. -/
theorem spells_of_mem_scanFrom {position : Nat} {t : Token}
    (h : t ∈ (scanFrom position 0 cs).tokens) : Spells t.kind t.lexeme.toList := by
  induction cs using scan_induction generalizing position with
  | nil => cases h
  | space cs ih =>
    rw [scanFrom_space] at h
    exact ih h
  | token kind lexeme rest hl ih =>
    rw [scanFrom_token position hl] at h
    rcases List.mem_cons.1 h with rfl | h
    · simpa using hl.spells
    · exact ih h
  | foreign c cs hc =>
    rw [scanFrom_foreign hc] at h
    cases h

theorem Munches.scanFrom {position : Nat} {ts : List Token} (h : Munches position cs ts) :
    scanFrom position 0 cs = ⟨ts, none⟩ := by
  induction h with
  | done => rfl
  | space h ih => rw [scanFrom_space, ih]
  | token hl h ih => rw [scanFrom_token _ hl, ih]

theorem munches_of_scanFrom {position : Nat} {ts : List Token}
    (h : Token.scanFrom position 0 cs = ⟨ts, none⟩) : Munches position cs ts := by
  induction cs using scan_induction generalizing position ts with
  | nil =>
    cases h
    exact .done
  | space cs ih => exact .space (ih (by rwa [scanFrom_space] at h))
  | token kind lexeme rest hl ih =>
    rw [scanFrom_token _ hl] at h
    obtain ⟨rfl, hstop⟩ := Scan.mk.inj h
    exact .token hl (ih (congrArg (Scan.mk _) hstop))
  | foreign c cs hc =>
    rw [scanFrom_foreign hc] at h
    cases h

/-- With less of the text behind it a token is the longest all the more. -/
theorem Longest.of_prefix {cs' : List Char} (h : Longest kind lexeme cs) (hp : lexeme <+: cs')
    (hcs : cs' <+: cs) : Longest kind lexeme cs' :=
  ⟨h.spells, hp, fun kind' lexeme' hs hp' => h.longest kind' lexeme' hs (hp'.trans hcs)⟩

/-- The scanner stops at a foreign character, and what stands before it is used up. -/
theorem munches_of_stop {position : Nat} {ts : List Token} {stop : Unreadable}
    (h : Token.scanFrom position 0 cs = ⟨ts, some stop⟩) :
    IsForeign stop.fragment ∧ ∃ before after, cs = before ++ stop.fragment :: after ∧
      position + bytes before = stop.position ∧ Munches position before ts := by
  induction cs using scan_induction generalizing position ts with
  | nil => cases h
  | space cs ih =>
    rw [scanFrom_space] at h
    obtain ⟨hforeign, before, after, rfl, hpos, hm⟩ := ih h
    refine ⟨hforeign, ' ' :: before, after, rfl, ?_, .space hm⟩
    rw [bytes_cons, utf8Size_space, ← Nat.add_assoc, hpos]
  | token kind lexeme rest hl ih =>
    rw [scanFrom_token _ hl] at h
    obtain ⟨rfl, hstop⟩ := Scan.mk.inj h
    obtain ⟨hforeign, before, after, rfl, hpos, hm⟩ := ih (congrArg (Scan.mk _) hstop)
    refine ⟨hforeign, lexeme ++ before, after, by simp, ?_, .token ?_ hm⟩
    · rw [bytes_append, ← Nat.add_assoc, hpos]
    · refine hl.of_prefix (List.prefix_append _ _) ?_
      rw [← List.append_assoc]
      exact List.prefix_append _ _
  | foreign c cs hc =>
    rw [scanFrom_foreign hc] at h
    cases h
    exact ⟨hc, [], cs, rfl, by simp, .done⟩

/-- The tokens of a text are those that munching finds, and there are none where it gets stuck. -/
theorem ofText_eq_ok_iff_munches {text : String} {ts : List Token} :
    ofText text = .ok ts ↔ Munches 0 text.toList ts := by
  have hscan : ofText text = .ok ts ↔ Token.scanFrom 0 0 text.toList = ⟨ts, none⟩ := by
    unfold ofText scan
    split
    · rename_i tokens h
      simp [h]
    · rename_i tokens stop h
      simp [h]
  rw [hscan]
  exact ⟨munches_of_scanFrom, Munches.scanFrom⟩

/-- Every token is the longest one where it stands. -/
theorem Munches.longest_at {position : Nat} {ts : List Token} {t : Token}
    (h : Munches position cs ts) (ht : t ∈ ts) :
    ∃ before after, cs = before ++ t.lexeme.toList ++ after ∧
      t.position = position + bytes before ∧
      Longest t.kind t.lexeme.toList (t.lexeme.toList ++ after) := by
  induction h with
  | done => cases ht
  | space h ih =>
    obtain ⟨before, after, rfl, hpos, hlong⟩ := ih ht
    exact ⟨' ' :: before, after, rfl, by simp [hpos, utf8Size_space, Nat.add_assoc], hlong⟩
  | @token position kind lexeme rest ts hl h ih =>
    rcases List.mem_cons.1 ht with rfl | ht
    · exact ⟨[], rest, by simp, by simp, by simpa using hl⟩
    · obtain ⟨before, after, rfl, hpos, hlong⟩ := ih ht
      exact ⟨lexeme ++ before, after, by simp, by simp [hpos, Nat.add_assoc], hlong⟩

/-- The token ends before the other one begins. -/
def Precedes (t u : Token) : Prop :=
  t.position < u.position ∧ t.position + t.lexeme.utf8ByteSize ≤ u.position

theorem Munches.pairwise_precedes {position : Nat} {ts : List Token} (h : Munches position cs ts) :
    ts.Pairwise Precedes := by
  induction h with
  | done => exact .nil
  | space h ih => exact ih
  | @token position kind lexeme rest ts hl h ih =>
    refine .cons (fun u hu => ?_) ih
    obtain ⟨before, -, -, hpos, -⟩ := h.longest_at hu
    have hbytes := bytes_pos hl.spells.ne_nil
    constructor
    · change position < u.position
      omega
    · change position + bytes lexeme ≤ u.position
      omega

/-- A character outside all tokens is a space. -/
theorem Munches.covers {position : Nat} {before after : List Char} {c : Char} {ts : List Token}
    (h : Munches position (before ++ c :: after) ts) :
    c = ' ' ∨ ∃ t ∈ ts, t.position ≤ position + bytes before ∧
      position + bytes before < t.position + t.lexeme.utf8ByteSize := by
  generalize hcs : before ++ c :: after = cs at h
  induction h generalizing before with
  | done => simp at hcs
  | @space position cs ts h ih =>
    cases before with
    | nil => exact .inl (List.cons.inj hcs).1
    | cons b before =>
      obtain ⟨rfl, htail⟩ := List.cons.inj hcs
      simpa [utf8Size_space, Nat.add_assoc] using ih htail
  | @token position kind lexeme rest ts hl h ih =>
    rcases List.append_eq_append_iff.1 hcs with ⟨as, rfl, has⟩ | ⟨earlier, rfl, hrest⟩
    · cases as with
      | nil =>
        have hrest : [] ++ c :: after = rest := has
        rcases ih hrest with hspace | ⟨t, ht, hlow, hhigh⟩
        · exact .inl hspace
        · exact .inr ⟨t, List.mem_cons_of_mem _ ht, by simpa using hlow, by simpa using hhigh⟩
      | cons d as =>
        obtain ⟨rfl, -⟩ := List.cons.inj has
        have hpos := bytes_pos (List.cons_ne_nil c as)
        refine .inr ⟨_, List.mem_cons_self, Nat.le_add_right _ _, ?_⟩
        change position + bytes before < position + bytes (before ++ c :: as)
        rw [bytes_append]
        omega
    · rcases ih hrest.symm with hspace | ⟨t, ht, hlow, hhigh⟩
      · exact .inl hspace
      · rw [bytes_append, ← Nat.add_assoc]
        exact .inr ⟨t, List.mem_cons_of_mem _ ht, hlow, hhigh⟩

end Munching

/-- The piece stands in the text at this byte offset. -/
def At (text : String) (position : Nat) (piece : String) : Prop :=
  ∃ before after, text = before ++ piece ++ after ∧ before.utf8ByteSize = position

theorem longest_at_of_ofText {text : String} {ts : List Token} {t : Token}
    (h : ofText text = .ok ts) (ht : t ∈ ts) :
    ∃ before after, text = before ++ t.lexeme ++ after ∧ before.utf8ByteSize = t.position ∧
      Longest t.kind t.lexeme.toList (t.lexeme ++ after).toList := by
  obtain ⟨before, after, htext, hpos, hlong⟩ := (ofText_eq_ok_iff_munches.1 h).longest_at ht
  refine ⟨String.ofList before, String.ofList after, ?_, by simpa [bytes] using hpos.symm,
    by simpa using hlong⟩
  rw [← String.toList_inj]
  simpa using htext

theorem at_of_ofText {text : String} {ts : List Token} {t : Token} (h : ofText text = .ok ts)
    (ht : t ∈ ts) : At text t.position t.lexeme := by
  obtain ⟨before, after, htext, hpos, -⟩ := longest_at_of_ofText h ht
  exact ⟨before, after, htext, hpos⟩

theorem spells_of_ofText {text : String} {ts : List Token} {t : Token}
    (h : ofText text = .ok ts) (ht : t ∈ ts) : Spells t.kind t.lexeme.toList := by
  obtain ⟨_, _, _, _, hlong⟩ := longest_at_of_ofText h ht
  exact hlong.spells

theorem ofText_eq_error_iff {text : String} {stop : Unreadable} :
    ofText text = .error stop ↔
      Token.scanFrom 0 0 text.toList = ⟨(scan text).tokens, some stop⟩ := by
  unfold ofText
  split
  · rename_i tokens h
    rw [scan] at h
    simp [h]
  · rename_i tokens stop' h
    rw [scan] at h
    simp [h, scan]

/-- The scanner stops at a character of the text and tells its place. -/
theorem at_of_ofText_error {text : String} {stop : Unreadable} (h : ofText text = .error stop) :
    At text stop.position (String.singleton stop.fragment) := by
  obtain ⟨-, before, after, htext, hpos, -⟩ := munches_of_stop (ofText_eq_error_iff.1 h)
  refine ⟨String.ofList before, String.ofList after, ?_, by simpa [bytes] using hpos⟩
  rw [← String.toList_inj]
  simpa using htext

theorem covers_of_ofText {text before after : String} {c : Char} {ts : List Token}
    (h : ofText text = .ok ts) (htext : text = before ++ String.singleton c ++ after) :
    c = ' ' ∨ ∃ t ∈ ts, t.position ≤ before.utf8ByteSize ∧
      before.utf8ByteSize < t.position + t.lexeme.utf8ByteSize := by
  have hm := ofText_eq_ok_iff_munches.1 h
  rw [htext, String.toList_append, String.toList_append, String.toList_singleton,
    List.append_assoc, List.singleton_append] at hm
  simpa [bytes] using hm.covers

/-- A text falls into its tokens and spaces exactly where the scanner can read it: every token is
the longest that begins at its place, none overlaps another, and only spaces lie outside. -/
theorem tokens_partition_text (text : String) :
    (∀ ts, ofText text = .ok ts →
      ts.Pairwise Precedes ∧
      (∀ t ∈ ts, t.kind ≠ .blank ∧ ∃ before after, text = before ++ t.lexeme ++ after ∧
        before.utf8ByteSize = t.position ∧
        Longest t.kind t.lexeme.toList (t.lexeme ++ after).toList) ∧
      ∀ before c after, text = before ++ String.singleton c ++ after →
        c = ' ' ∨ ∃ t ∈ ts, t.position ≤ before.utf8ByteSize ∧
          before.utf8ByteSize < t.position + t.lexeme.utf8ByteSize) ∧
    ∀ ts, ofText text = .ok ts ↔ Munches 0 text.toList ts := by
  refine ⟨fun ts h => ⟨?_, fun t ht => ?_, fun before c after htext => ?_⟩,
    fun ts => ofText_eq_ok_iff_munches⟩
  · exact (ofText_eq_ok_iff_munches.1 h).pairwise_precedes
  · obtain ⟨before, after, htext, hpos, hlong⟩ := longest_at_of_ofText h ht
    exact ⟨hlong.spells.kind_ne_blank, before, after, htext, hpos, hlong⟩
  · exact covers_of_ofText h htext

-- the third colon belongs to no token, though digits follow it
example : ofText "1:2:3:4" = .error ⟨':', 5⟩ := rfl

end ClockCalc.Token

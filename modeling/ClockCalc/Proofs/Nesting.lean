import ClockCalc.Proofs.Parsing

/-! The limit on nesting only cuts readings off. A part of a text that is read without meeting it is
read in the same way fewer levels deep, whatever comes of it, and up to the same token. So a group
around an expression changes nothing but the number of levels. -/

namespace ClockCalc

/-- The answer when an operand lies under too many levels. -/
def TooDeep {α : Type} (x : Except Error α) : Prop :=
  ∃ position, x = .error (.grammar (.tooDeep position))

theorem tooDeep_map {α β : Type} {f : α → β} {x : Except Error α} :
    TooDeep (x.map f) ↔ TooDeep x := by
  simp only [TooDeep, map_eq_error_iff]

/-- The second reading stands in for the first one where more tokens follow: it goes on with the
operand that the first one has made of all its tokens, and has the same failures, except that
the end of the first is none for it. -/
def GoesOn {α β : Type} (k : α → Except Error β) (x : Except Error (α × List Token))
    (y : Except Error β) : Prop :=
  (∀ v, x = .ok (v, []) → y = k v) ∧
    ∀ err, x = .error err → err ≠ .grammar .endOfInput → y = .error err

namespace GoesOn

variable {α β : Type} {k : α → Except Error β}

theorem whole {v : α} : GoesOn k (.ok (v, [])) (k v) := by
  refine ⟨fun w hw => ?_, fun err herr => ?_⟩
  · cases hw
    rfl
  · cases herr

theorem leftover {v : α} {t : Token} {ts : List Token} {y : Except Error β} :
    GoesOn k (.ok (v, t :: ts)) y := by
  refine ⟨fun w hw => ?_, fun err herr => ?_⟩
  · cases hw
  · cases herr

theorem same (err : Error) : GoesOn k (.error err) (.error err) := by
  refine ⟨fun w hw => ?_, fun err' herr _ => ?_⟩
  · cases hw
  · cases herr
    rfl

theorem endOfInput {y : Except Error β} : GoesOn k (.error (.grammar .endOfInput)) y := by
  refine ⟨fun w hw => ?_, fun err herr hne => ?_⟩
  · cases hw
  · cases herr
    exact absurd rfl hne

end GoesOn

namespace Reducer

variable {α : Type} (R : Reducer α)

/-- What a token does to a reading. It goes on with what is open then, it has ended before the
token, or it fails there. Then the token may have been taken or only looked at. -/
inductive Step (α : Type) where
  | takes (stack : List (Frame α)) (operand : Option α)
  | ends (v : α)
  | fails (err : Error) (taken : Bool)

def step (base : Nat) (stack : List (Frame α)) : Option α → Token → Step α
  | none, t =>
    if maxNesting < base + depth stack then .fails (.grammar (.tooDeep t.position)) false
    else match t.kind with
      | .literal _ =>
        match R.literal t with
        | .ok v => .takes stack (some v)
        | .error err => .fails err true
      | .openGroup => .takes (.group :: stack) none
      | .operator op =>
        match op.sign? with
        | some sign => .takes (.sign sign t.position :: stack) none
        | none => .fails (.grammar (.unexpected t.lexeme t.position)) true
      | _ => .fails (.grammar (.unexpected t.lexeme t.position)) true
  | some v, t =>
    match t.binaryOp? with
    | some op =>
      match R.settle op.completes stack v with
      | .ok (stack, left) => .takes (.binary left op t.position :: stack) none
      | .error err => .fails err false
    | none =>
      match R.settle 1 stack v with
      | .ok ([], v) => .ends v
      | .ok (_ :: stack, v) =>
        if t.kind = .closeGroup then .takes stack (some v)
        else .fails (.grammar (.unexpected t.lexeme t.position)) true
      | .error err => .fails err false

variable {R} {base base' : Nat} {stack : List (Frame α)} {operand : Option α} {t o c : Token}
  {ts rest : List Token} {v : α}

theorem readFrom_cons (R : Reducer α) (base : Nat) (stack : List (Frame α)) (operand : Option α)
    (t : Token) (ts : List Token) :
    R.readFrom base stack operand (t :: ts) =
      match R.step base stack operand t with
      | .takes stack operand => R.readFrom base stack operand ts
      | .ends v => .ok (v, t :: ts)
      | .fails err _ => .error err := by
  cases operand with
  | none =>
    by_cases hd : maxNesting < base + depth stack
    · simp [readFrom, step, hd]
    · cases hk : t.kind with
      | literal form => cases hl : R.literal t <;> simp [readFrom, step, hd, hk, hl]
      | openGroup => simp [readFrom, step, hd, hk]
      | operator op => cases hs : op.sign? <;> simp [readFrom, step, hd, hk, hs]
      | closeGroup => simp [readFrom, step, hd, hk]
      | blank => simp [readFrom, step, hd, hk]
  | some v =>
    cases ho : t.binaryOp? with
    | some op => cases hs : R.settle op.completes stack v <;> simp [readFrom, step, ho, hs]
    | none =>
      rcases hs : R.settle 1 stack v with err | ⟨_ | ⟨frame, below⟩, w⟩
      · simp [readFrom, step, ho, hs]
      · simp [readFrom, step, ho, hs]
      · by_cases hc : t.kind = .closeGroup <;> simp [readFrom, step, ho, hs, hc]

/-- Apart from the limit, the number of levels makes no difference to a step. -/
theorem step_eq_of_le (hle : base' ≤ base)
    (h : ∀ position taken,
      R.step base stack operand t ≠ .fails (.grammar (.tooDeep position)) taken) :
    R.step base' stack operand t = R.step base stack operand t := by
  cases operand with
  | none =>
    by_cases hd : maxNesting < base + depth stack
    · exact absurd (if_pos hd) (h t.position false)
    · have hd' : ¬ maxNesting < base' + depth stack := by omega
      simp only [step, if_neg hd, if_neg hd']
  | some v => rfl

/-- Reads as `readFrom` does and keeps the tokens that have not been taken, also where reading
fails. -/
def consume (base : Nat) (stack : List (Frame α)) (operand : Option α) :
    List Token → Except Error α × List Token
  | [] => ((R.readFrom base stack operand []).map Prod.fst, [])
  | t :: ts =>
    match R.step base stack operand t with
    | .takes stack operand => consume base stack operand ts
    | .ends v => (.ok v, t :: ts)
    | .fails err taken => (.error err, if taken then ts else t :: ts)

/-- The tokens that are left where a part has been read or could not be read on. -/
def leftOver (depth : Nat) (ts : List Token) : List Token := (R.consume depth [] none ts).2

theorem readFrom_nil :
    R.readFrom base stack operand [] =
      ((R.readFrom base stack operand []).map Prod.fst).map fun v => (v, []) := by
  cases operand with
  | none => rfl
  | some v =>
    rw [readFrom]
    rcases R.settle 1 stack v with err | ⟨_ | ⟨frame, below⟩, w⟩ <;> rfl

theorem readFrom_eq_consume :
    R.readFrom base stack operand ts =
      (R.consume base stack operand ts).1.map
        fun v => (v, (R.consume base stack operand ts).2) := by
  induction ts generalizing stack operand with
  | nil => exact readFrom_nil
  | cons t ts ih =>
    rw [readFrom_cons, consume]
    cases R.step base stack operand t with
    | takes stack operand => exact ih
    | ends v => rfl
    | fails err taken => rfl

/-- By induction on the tokens: every step is the same. -/
theorem consume_eq_of_le (hle : base' ≤ base)
    (h : ¬ TooDeep (R.consume base stack operand ts).1) :
    R.consume base' stack operand ts = R.consume base stack operand ts := by
  induction ts generalizing stack operand with
  | nil => cases operand <;> rfl
  | cons t ts ih =>
    have hstep : R.step base' stack operand t = R.step base stack operand t := by
      refine step_eq_of_le hle fun position taken hs => h ?_
      rw [consume, hs]
      exact ⟨position, rfl⟩
    rw [consume] at h ⊢
    rw [consume, hstep]
    cases hs : R.step base stack operand t with
    | takes stack operand =>
      rw [hs] at h
      exact ih h
    | ends v => rfl
    | fails err taken => rfl

/-- A part that is read without meeting the limit is read in the same way fewer levels deep. -/
theorem readPart_eq_of_le {d d' : Nat} (hle : d' ≤ d) (h : ¬ TooDeep (R.readPart d ts)) :
    R.readPart d' ts = R.readPart d ts ∧ R.leftOver d' ts = R.leftOver d ts := by
  unfold readPart at h ⊢
  rw [readFrom_eq_consume, tooDeep_map] at h
  have hsame := consume_eq_of_le hle h
  exact ⟨by rw [readFrom_eq_consume, readFrom_eq_consume, hsame], congrArg Prod.snd hsame⟩

/-- A group at the bottom stays open until a closing token. -/
theorem settle_append_group {least : Nat} (hl : 1 ≤ least) (stack : List (Frame α)) (v : α) :
    R.settle least (stack ++ [.group]) v =
      (R.settle least stack v).map fun (stack, v) => (stack ++ [.group], v) := by
  induction stack generalizing v with
  | nil => exact if_pos hl
  | cons frame stack ih =>
    rw [List.cons_append]
    unfold settle
    split
    · rfl
    · cases R.close v frame with
      | error err => rfl
      | ok w => exact ih w

theorem depth_append_group (stack : List (Frame α)) :
    depth (stack ++ [.group]) = depth stack + 1 := by
  rw [depth, List.countP_append]
  rfl

/-- The same step above more frames. -/
def Step.above (below : List (Frame α)) : Step α → Step α
  | takes stack operand => takes (stack ++ below) operand
  | ends v => ends v
  | fails err taken => fails err taken

/-- An open group at the bottom counts as one level. It is out of reach as long as reading does not
end above it. -/
theorem step_append_group (h : ∀ v, R.step (base + 1) stack operand t ≠ .ends v) :
    R.step base (stack ++ [.group]) operand t =
      (R.step (base + 1) stack operand t).above [.group] := by
  cases operand with
  | none =>
    have hdepth : base + depth (stack ++ [.group]) = base + 1 + depth stack := by
      rw [depth_append_group]
      omega
    by_cases hd : maxNesting < base + 1 + depth stack
    · simp [step, hdepth, hd, Step.above]
    · cases hk : t.kind with
      | literal form => cases hl : R.literal t <;> simp [step, hdepth, hd, hk, hl, Step.above]
      | openGroup => simp [step, hdepth, hd, hk, Step.above]
      | operator op => cases hs : op.sign? <;> simp [step, hdepth, hd, hk, hs, Step.above]
      | closeGroup => simp [step, hdepth, hd, hk, Step.above]
      | blank => simp [step, hdepth, hd, hk, Step.above]
  | some v =>
    cases ho : t.binaryOp? with
    | some op =>
      have hsettle := settle_append_group (R := R) op.completes_pos stack v
      cases hs : R.settle op.completes stack v <;>
        simp [step, ho, hsettle, hs, Except.map, Step.above]
    | none =>
      have hsettle := settle_append_group (R := R) (Nat.le_refl 1) stack v
      rcases hs : R.settle 1 stack v with err | ⟨_ | ⟨frame, below⟩, w⟩
      · simp [step, ho, hsettle, hs, Except.map, Step.above]
      · exact absurd (by simp [step, ho, hs]) (h w)
      · by_cases hc : t.kind = .closeGroup <;>
          simp [step, ho, hsettle, hs, hc, Except.map, Step.above]

/-- By induction on the tokens. What is read inside a group is read as it would be one level deeper
outside of it. -/
theorem goesOn_in_group (hc : c.kind = .closeGroup) (rest : List Token) (base : Nat)
    (stack : List (Frame α)) (operand : Option α) (ts : List Token) :
    GoesOn (fun v => R.readFrom base [] (some v) rest) (R.readFrom (base + 1) stack operand ts)
      (R.readFrom base (stack ++ [.group]) operand (ts ++ c :: rest)) := by
  induction ts generalizing stack operand with
  | nil =>
    cases operand with
    | none => exact .endOfInput
    | some v =>
      have ho : c.binaryOp? = none := by simp [Token.binaryOp?, hc]
      simp only [readFrom, List.nil_append, ho, settle_append_group (Nat.le_refl 1)]
      rcases R.settle 1 stack v with err | ⟨_ | ⟨frame, below⟩, w⟩
      · exact .same err
      · simp only [ok_bind, Except.map, List.nil_append, if_pos hc]
        exact .whole
      · exact .endOfInput
  | cons t ts ih =>
    have hstep : (∀ v, R.step (base + 1) stack operand t ≠ .ends v) →
        R.step base (stack ++ [.group]) operand t = _ := step_append_group
    rw [List.cons_append, readFrom_cons, readFrom_cons]
    cases hs : R.step (base + 1) stack operand t with
    | takes stack operand =>
      rw [hstep (by simp [hs]), hs]
      exact ih stack operand
    | ends v => exact .leftover
    | fails err taken =>
      rw [hstep (by simp [hs]), hs]
      exact .same err

theorem readPart_group (ho : o.kind = .openGroup) (ts : List Token) :
    R.readPart 0 (o :: ts) = R.readFrom 0 [.group] none ts := by
  simp [readPart, readFrom, depth, ho]

/-- A group around an expression is read with the same value, unless an operand lies too deep
then. -/
theorem read_group (ho : o.kind = .openGroup) (hc : c.kind = .closeGroup)
    (h : R.read ts = .ok v) :
    R.read (o :: (ts ++ [c])) = .ok v ∨ TooDeep (R.read (o :: (ts ++ [c]))) := by
  obtain ⟨hwhole, hfails⟩ := goesOn_in_group (R := R) hc [] 0 [] none ts
  rw [List.nil_append, ← readPart_group ho] at hwhole hfails
  by_cases hdeep : TooDeep (R.readPart 1 ts)
  · obtain ⟨position, hdeep⟩ := hdeep
    refine .inr ⟨position, ?_⟩
    rw [read, hfails _ hdeep (by simp), error_bind]
  · obtain ⟨⟨w, rest⟩, hpart, hrest⟩ := bind_eq_ok_iff.1 h
    cases rest with
    | cons t rest => cases hrest
    | nil =>
      cases hrest
      rw [(readPart_eq_of_le (Nat.zero_le 1) hdeep).1] at hpart
      refine .inl ?_
      rw [read, hwhole v hpart]
      rfl

/-- The group has a derivation of its own as long as its inner phrase stays below the limit. -/
theorem read_group_of_nesting {p : Phrase} {e : Expr} (ho : o.kind = .openGroup)
    (hc : c.kind = .closeGroup) (hp : p.Derives ts e) (hn : p.nesting < maxNesting) :
    R.read (o :: (ts ++ [c])) = R.read ts := by
  have hgroup : (Phrase.group o p c ho hc).Derives (o :: (ts ++ [c])) e :=
    { rank := (Phrase.HasRank.group hp.rank).loosen (Nat.zero_le _)
      shallow := hn
      tokens := by rw [Phrase.tokens, hp.tokens]
      tree := hp.tree }
  rw [R.read_eq_fold (Expr.read_of_derives hgroup), R.read_eq_fold (Expr.read_of_derives hp)]

theorem nesting_lt_of_read_group {p : Phrase} {e : Expr} (ho : o.kind = .openGroup)
    (hc : c.kind = .closeGroup) (hp : p.Derives ts e) (h : R.read (o :: (ts ++ [c])) = .ok v) :
    p.nesting < maxNesting := by
  obtain ⟨e', htree, -⟩ := R.exists_tree h
  obtain ⟨q, hq⟩ := Expr.exists_derivation htree
  have he : e' = e := by
    rcases read_group ho hc (Expr.read_of_derives hp) with h | ⟨position, h⟩
    · exact Except.ok.inj (htree.symm.trans h)
    · rw [htree] at h
      cases h
  have hgroup : q = .group o p c ho hc := by
    refine Phrase.eq_of_tokens_of_tree ?_ ?_
    · rw [hq.tokens, Phrase.tokens, hp.tokens]
    · rw [hq.tree, Phrase.tree, hp.tree, he]
  have hshallow := hq.shallow
  rw [hgroup] at hshallow
  exact hshallow

/-- A part that is read without meeting the limit on nesting is read in the same way fewer levels
deep, with the same answer and the same tokens left. So an expression in a group has the value that
it has alone or lies too deep, and it has that value exactly if no operand lies under as many levels
as there may be. -/
theorem limit_only_cuts_off (R : Reducer α) (ts : List Token) :
    (∀ d d', d' ≤ d → ¬ TooDeep (R.readPart d ts) →
      R.readPart d' ts = R.readPart d ts ∧ R.leftOver d' ts = R.leftOver d ts) ∧
    ∀ v, R.read ts = .ok v →
      ∀ o c : Token, o.kind = .openGroup → c.kind = .closeGroup →
        (R.read (o :: (ts ++ [c])) = .ok v ∨ TooDeep (R.read (o :: (ts ++ [c])))) ∧
        ∀ (p : Phrase) (e : Expr), p.Derives ts e →
          (R.read (o :: (ts ++ [c])) = .ok v ↔ p.nesting < maxNesting) := by
  refine ⟨fun d d' => readPart_eq_of_le, fun v hv o c ho hc => ⟨read_group ho hc hv, ?_⟩⟩
  intro p e hp
  refine ⟨nesting_lt_of_read_group ho hc hp, fun hn => ?_⟩
  rw [read_group_of_nesting ho hc hp hn, hv]

/-- The last level there is has the same fault as the first one, and a power in a group is still
that power. -/
theorem limit_only_cuts_off_behind_caret :
    let two : Token := ⟨.literal .integer, "2", 1⟩
    let caret : Token := ⟨.operator .pow, "^", 2⟩
    let three : Token := ⟨.literal .integer, "3", 3⟩
    let opening : Token := ⟨.openGroup, "(", 0⟩
    let closing : Token := ⟨.closeGroup, ")", 4⟩
    let phrase : Phrase := .binary .pow (.literal two rfl) caret (.literal three rfl) rfl
    let broken := [closing, three]
    ¬ TooDeep (Expr.reducer.readPart 128 broken) ∧
      (Expr.reducer.readPart 0 broken = Expr.reducer.readPart 128 broken ∧
        Expr.reducer.leftOver 0 broken = Expr.reducer.leftOver 128 broken) ∧
      Expr.reducer.leftOver 128 broken = [three] ∧
      phrase.Derives [two, caret, three] phrase.tree ∧
      Expr.reducer.read [two, caret, three] = .ok phrase.tree ∧
      (Expr.reducer.read [opening, two, caret, three, closing] = .ok phrase.tree ↔
        phrase.nesting < maxNesting) ∧
      phrase.nesting < maxNesting := by
  intro two caret three opening closing phrase broken
  have hbroken : ¬ TooDeep (Expr.reducer.readPart 128 broken) := by
    rintro ⟨position, h⟩
    have hpart : Expr.reducer.readPart 128 broken = .error (.grammar (.unexpected ")" 4)) := rfl
    rw [hpart] at h
    cases h
  have hrank : phrase.HasRank .sum :=
    .sumOfProduct (.productOfUnary (.unaryOfPower
      (.power .literal (.unaryOfPower (.powerOfPrimary .literal)))))
  have hphrase : phrase.Derives [two, caret, three] phrase.tree :=
    ⟨hrank, by decide, rfl, rfl⟩
  refine ⟨hbroken, (limit_only_cuts_off Expr.reducer broken).1 128 0 (by decide) hbroken, rfl,
    hphrase, rfl, ?_, by decide⟩
  exact ((limit_only_cuts_off Expr.reducer [two, caret, three]).2 phrase.tree rfl opening closing
    rfl rfl).2 phrase phrase.tree hphrase

end Reducer

end ClockCalc

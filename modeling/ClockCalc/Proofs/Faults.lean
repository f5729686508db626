import ClockCalc.Proofs.Reductions
import ClockCalc.Proofs.Sentences

/-! Where a fault of the grammar is met. It is the first token that no sentence has after those
before it, or the end where no sentence ends. The limit on nesting counts the levels around the
operand that is due. -/

namespace ClockCalc

open ClockCalc.Expr (Opened Standing)
open Reducer (depth maxNesting Takes Stops Reads)

/-- What a fault of the grammar says of the tokens. -/
inductive GrammarFault.Meets : GrammarFault → List Token → Prop
  | unexpected {before t after} : BeginsSentence before → ¬ BeginsSentence (before ++ [t]) →
      Meets (.unexpected t.lexeme t.position) (before ++ t :: after)
  | endOfInput {ts} : BeginsSentence ts → ¬ IsSentence ts → Meets .endOfInput ts
  | tooDeep {before t after} : OperandDue before (maxNesting + 1) →
      Meets (.tooDeep t.position) (before ++ t :: after)

/-- The groups among the open frames. They are what no operator closes. -/
def openGroups (stack : List (Frame Expr)) : Nat := stack.countP fun frame => frame.grip = 0

/-- The gap in which a reader of trees stands. -/
def Gap.ofStack (stack : List (Frame Expr)) (operand : Option Expr) : Gap :=
  ⟨operand.isNone, openGroups stack⟩

theorem openGroups_cons (frame : Frame Expr) (stack : List (Frame Expr)) :
    openGroups (frame :: stack) = openGroups stack + if frame.grip = 0 then 1 else 0 := by
  simp [openGroups, List.countP_cons]

theorem BinaryOp.grip_ne_zero (op : BinaryOp) : op.grip ≠ 0 := by
  cases op <;> decide

theorem openGroups_settle {least : Nat} {stack stack' : List (Frame Expr)} {e e' : Expr}
    (hleast : 1 ≤ least) (hs : Expr.settle least stack e = (stack', e')) :
    openGroups stack' = openGroups stack := by
  induction stack generalizing e with
  | nil =>
    cases hs
    rfl
  | cons frame stack ih =>
    rw [Expr.settle] at hs
    split at hs
    · cases hs
      rfl
    · have hgrip : frame.grip ≠ 0 := by omega
      rw [ih hs, openGroups_cons, if_neg hgrip, Nat.add_zero]

theorem depth_le_of_settle {least : Nat} {stack stack' : List (Frame Expr)} {e e' : Expr}
    (hs : Expr.settle least stack e = (stack', e')) : depth stack' ≤ depth stack := by
  have hsuffix := Expr.settle_suffix least stack e
  rw [hs] at hsuffix
  exact hsuffix.sublist.countP_le

section

variable {stack stack' : List (Frame Expr)} {operand operand' : Option Expr} {t : Token}
  {before ts : List Token} {e e' : Expr} {fault : GrammarFault}

/-- A token is taken only where it may stand. -/
theorem next?_of_takes (h : Takes 0 stack operand t stack' operand') :
    (Gap.ofStack stack operand).next? t = some (Gap.ofStack stack' operand') := by
  cases h with
  | literal hd ht =>
    obtain ⟨form, hk⟩ := Phrase.kind_of_isLiteral ht
    simp [Gap.ofStack, Gap.next?, hk]
  | group hd hk => simp [Gap.ofStack, Gap.next?, hk, openGroups_cons, Frame.grip]
  | sign hd hk ho => simp [Gap.ofStack, Gap.next?, hk, ho, openGroups_cons, Frame.grip]
  | operator ho hs =>
    have hgroups := openGroups_settle (BinaryOp.completes_pos _) hs
    simp [Gap.ofStack, Gap.next?, Phrase.kind_of_binaryOp? ho, openGroups_cons, Frame.grip,
      BinaryOp.grip_ne_zero, hgroups]
  | close hc hs =>
    have hgroups := openGroups_settle (Nat.le_refl 1) hs
    rw [openGroups_cons] at hgroups
    simp [Gap.ofStack, Gap.next?, hc, ← hgroups, Frame.grip]

/-- How deep the open frames may nest: where an operand is due, one level more than the limit. -/
def Nests (stack : List (Frame Expr)) (operand : Option Expr) : Prop :=
  depth stack ≤ maxNesting + if operand.isNone then 1 else 0

theorem nests_of_takes (hnests : Nests stack operand)
    (h : Takes 0 stack operand t stack' operand') : Nests stack' operand' := by
  unfold Nests at hnests ⊢
  cases h with
  | literal hd ht => simpa using hd
  | group hd hk => simpa [depth_cons, Frame.nests] using hd
  | sign hd hk ho => simpa [depth_cons, Frame.nests] using hd
  | operator ho hs =>
    have hle := depth_le_of_settle hs
    simp only [Option.isNone_some, Option.isNone_none, Bool.false_eq_true, ite_false, ite_true,
      depth_cons] at hnests ⊢
    split <;> omega
  | close hc hs =>
    have hle := depth_le_of_settle hs
    simp only [Option.isNone_some, Bool.false_eq_true, ite_false, depth_cons] at hnests hle ⊢
    omega

/-- What is known of the tokens that a reader of trees has taken. -/
structure Reached (stack : List (Frame Expr)) (operand : Option Expr) (before : List Token) :
    Prop where
  standing : Standing 0 stack operand before
  walk : Gap.start.walk? before = some (Gap.ofStack stack operand)
  nests : Nests stack operand

theorem reached_nil : Reached [] none [] := ⟨.between .nil, rfl, by simp [Nests, depth]⟩

theorem Reached.takes (h : Reached stack operand before)
    (ht : Takes 0 stack operand t stack' operand') : Reached stack' operand' (before ++ [t]) where
  standing := h.standing.takes ht
  walk := by simp [Gap.walk?_append, h.walk, next?_of_takes ht]
  nests := nests_of_takes h.nests ht

theorem Reached.unexpected (h : Reached stack operand before)
    (ht : (Gap.ofStack stack operand).next? t = none) :
    (GrammarFault.unexpected t.lexeme t.position).Meets (before ++ t :: ts) :=
  .unexpected h.standing.beginsSentence (not_beginsSentence h.walk ht)

theorem Reached.endOfInput (h : Reached stack operand before)
    (hgap : Gap.ofStack stack operand ≠ ⟨false, 0⟩) : GrammarFault.endOfInput.Meets before := by
  refine .endOfInput h.standing.beginsSentence fun hsentence => hgap ?_
  exact Option.some.inj (h.walk.symm.trans hsentence.walk?)

theorem Reached.stops {held : List Expr} (h : Reached stack operand before)
    (hs : Stops 0 stack operand ts held fault) : fault.Meets (before ++ ts) := by
  cases hs with
  | tooDeep hd =>
    have hnests : depth stack ≤ maxNesting + 1 := h.nests
    have hdepth : depth stack = maxNesting + 1 := by omega
    cases h.standing with
    | between hstack => exact .tooDeep (hdepth ▸ hstack.operandDue)
  | noOperand hd hl hg ho => exact h.unexpected (Gap.next?_operand _ hl hg ho)
  | missing =>
    rw [List.append_nil]
    exact h.endOfInput (by simp [Gap.ofStack])
  | inGroup hs ho hc => exact h.unexpected (Gap.next?_after_operand _ ho fun hk => absurd hk hc)
  | unclosed hs =>
    have hgroups := openGroups_settle (Nat.le_refl 1) hs
    rw [openGroups_cons] at hgroups
    rw [List.append_nil]
    exact h.endOfInput (by simp [Gap.ofStack, ← hgroups, Frame.grip])

/-- Behind an expression that is complete nothing may follow but an operator. -/
theorem Reached.leftover (h : Reached stack (some e) before)
    (hs : Expr.settle 1 stack e = ([], e')) (ht : t.binaryOp? = none) :
    (GrammarFault.unexpected t.lexeme t.position).Meets (before ++ t :: ts) :=
  h.unexpected (Gap.next?_after_operand _ ht fun _ => (openGroups_settle (Nat.le_refl 1) hs).symm)

end

/-- What is wrong with a reading if it has to end with the tokens. -/
def Reading.fault? : Reading → Option GrammarFault
  | .whole _ [] => none
  | .whole _ (t :: _) => some (.unexpected t.lexeme t.position)
  | .stopped _ fault => some fault

/-- By induction on the reading: each token that is taken adds to what is known. -/
theorem Reached.meets {stack : List (Frame Expr)} {operand : Option Expr} {before ts : List Token}
    {r : Reading} {fault : GrammarFault} (h : Reached stack operand before)
    (hr : Reads 0 stack operand ts r) (hfault : r.fault? = some fault) :
    fault.Meets (before ++ ts) := by
  induction hr generalizing before with
  | takes ht _ ih =>
    rw [List.append_cons]
    exact ih (h.takes ht) hfault
  | @ends stack e e' ts hs ho =>
    cases ts with
    | nil => cases hfault
    | cons t ts =>
      cases hfault
      exact h.leftover hs (ho t rfl)
  | stops hs =>
    cases hfault
    exact h.stops hs

namespace Reducer

variable {α : Type} {R : Reducer α}

/-- The reducer never refuses. -/
structure Total (R : Reducer α) : Prop where
  literal : ∀ t, ∃ v, R.literal t = .ok v
  signed : ∀ op v position, ∃ w, R.signed op v position = .ok w
  binary : ∀ op v w position, ∃ x, R.binary op v w position = .ok x

theorem Total.fold (h : R.Total) (e : Expr) : ∃ v, R.fold e = .ok v := by
  induction e with
  | literal t => exact h.literal t
  | signed op e position ih =>
    obtain ⟨v, hv⟩ := ih
    obtain ⟨w, hw⟩ := h.signed op v position
    exact ⟨w, by rw [Reducer.fold, hv, ok_bind, hw]⟩
  | binary op left right position ihl ihr =>
    obtain ⟨v, hv⟩ := ihl
    obtain ⟨w, hw⟩ := ihr
    obtain ⟨x, hx⟩ := h.binary op v w position
    exact ⟨x, by rw [Reducer.fold, hv, ok_bind, hw, ok_bind, hx]⟩

theorem Total.foldAll (h : R.Total) (es : List Expr) : R.foldAll es = .ok () := by
  induction es with
  | nil => rfl
  | cons e es ih =>
    obtain ⟨v, hv⟩ := h.fold e
    rw [Reducer.foldAll, hv, ok_bind, ih]

theorem total_reducer : Expr.reducer.Total :=
  ⟨fun _ => ⟨_, rfl⟩, fun _ _ _ => ⟨_, rfl⟩, fun _ _ _ _ => ⟨_, rfl⟩⟩

/-- Only the tokens themselves can make a reducer fail that never refuses. -/
theorem Total.fault?_eq {ts : List Token} {r : Reading} {err : Error} (hR : R.Total)
    (hr : Reads 0 [] none ts r) (h : R.read ts = .error err) :
    ∃ fault, err = .grammar fault ∧ r.fault? = some fault := by
  rw [read, R.readPart_of_reads hr] at h
  cases r with
  | whole e rest =>
    obtain ⟨v, hv⟩ := hR.fold e
    rw [finish, hv] at h
    cases rest with
    | nil => cases h
    | cons t rest =>
      cases h
      exact ⟨_, rfl, rfl⟩
  | stopped held fault =>
    rw [finish, hR.foldAll] at h
    cases h
    exact ⟨fault, rfl, rfl⟩

/-- A reducer that never refuses fails only with a fault of the grammar, and that is met at the
first token with which no sentence goes on, at the end of tokens that only begin a sentence, or at
an operand under one level more than the limit. -/
theorem fault_at_first_token {ts : List Token} {err : Error} (hR : R.Total)
    (h : R.read ts = .error err) :
    ∃ fault : GrammarFault, err = .grammar fault ∧ fault.Meets ts := by
  obtain ⟨r, hr⟩ := exists_reads 0 [] none ts
  obtain ⟨fault, rfl, hfault⟩ := hR.fault?_eq hr h
  exact ⟨fault, rfl, reached_nil.meets hr hfault⟩

/-- The group is still open, and no operand follows the sum. -/
theorem fault_at_closing_group :
    let ts : List Token := [⟨.openGroup, "(", 0⟩, ⟨.literal .integer, "2", 1⟩,
      ⟨.operator .add, "+", 3⟩, ⟨.closeGroup, ")", 5⟩]
    Expr.reducer.Total ∧
      Expr.reducer.read ts = .error (.grammar (.unexpected ")" 5)) ∧
      ∃ fault : GrammarFault, Error.grammar (.unexpected ")" 5) = .grammar fault ∧ fault.Meets ts :=
  ⟨total_reducer, rfl, fault_at_first_token total_reducer rfl⟩

end Reducer

end ClockCalc

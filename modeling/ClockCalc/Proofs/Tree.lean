import ClockCalc.Expr.Reducer
import ClockCalc.Proofs.Except

/-! Reading is folding. What a text means to a reducer is the fold of the reducer over one tree,
the same for every reducer. Where the text is no expression there is no such tree, but the
operands completed before the fault are still met in order, so the first failure among them wins
over the fault. -/

namespace ClockCalc

/-- Expressions as trees. Groups leave no trace in them. -/
inductive Expr where
  | literal (t : Token)
  | signed (op : UnaryOp) (operand : Expr) (position : Nat)
  | binary (op : BinaryOp) (left right : Expr) (position : Nat)
  deriving DecidableEq

namespace Expr

def size : Expr → Nat
  | literal _ => 1
  | signed _ e _ => e.size + 1
  | binary _ left right _ => left.size + right.size + 1

/-- Builds the tree and never fails. -/
def reducer : Reducer Expr where
  literal t := .ok (.literal t)
  signed op e position := .ok (.signed op e position)
  binary op left right position := .ok (.binary op left right position)

def close (e : Expr) : Frame Expr → Expr
  | .sign op position => .signed op e position
  | .group => e
  | .binary left op position => .binary op left e position

def settle (least : Nat) : List (Frame Expr) → Expr → List (Frame Expr) × Expr
  | [], e => ([], e)
  | frame :: stack, e =>
    if frame.grip < least then (frame :: stack, e) else settle least stack (e.close frame)

/-- What is left on top holds its operand more loosely. -/
theorem settle_top {least : Nat} {stack below : List (Frame Expr)} {e e' : Expr}
    {frame : Frame Expr} (h : settle least stack e = (frame :: below, e')) :
    frame.grip < least := by
  induction stack generalizing e with
  | nil => cases h
  | cons top stack ih =>
    unfold settle at h
    split at h
    · cases h
      assumption
    · exact ih h

end Expr

theorem Frame.eq_group_of_grip {α : Type} {frame : Frame α} (h : frame.grip < 1) :
    frame = .group := by
  cases frame with
  | sign op position => simp [Frame.grip] at h
  | group => rfl
  | binary left op position => cases op <;> simp [Frame.grip, BinaryOp.grip] at h

namespace Reducer

variable {α : Type} (R : Reducer α)

/-- Operands before the operator that joins them, and the left operand before the right. -/
def fold : Expr → Except Error α
  | .literal t => R.literal t
  | .signed op e position => do R.signed op (← fold e) position
  | .binary op left right position => do
    let x ← fold left
    let y ← fold right
    R.binary op x y position

def foldAll : List Expr → Except Error Unit
  | [] => .ok ()
  | e :: es => do
    let _ ← R.fold e
    foldAll es

def foldFrame : Frame Expr → Except Error (Frame α)
  | .sign op position => .ok (.sign op position)
  | .group => .ok .group
  | .binary left op position => do return .binary (← R.fold left) op position

/-- The bottom of the stack was opened first, so it is folded first. -/
def foldStack : List (Frame Expr) → Except Error (List (Frame α))
  | [] => .ok []
  | frame :: stack => do
    let below ← foldStack stack
    let top ← R.foldFrame frame
    return top :: below

/-- Reads on from where a reader of trees stands, after folding all that it holds. -/
def resume (base : Nat) (stack : List (Frame Expr)) (operand : Option Expr) (ts : List Token) :
    Except Error (α × List Token) := do
  let stack ← R.foldStack stack
  match operand with
  | none => R.readFrom base stack none ts
  | some e => do
    let v ← R.fold e
    R.readFrom base stack (some v) ts

theorem fold_close (frame : Frame Expr) (e : Expr) :
    (do let f ← R.foldFrame frame; let v ← R.fold e; R.close v f) = R.fold (e.close frame) := by
  cases frame with
  | sign op position => rfl
  | group => simp [foldFrame, Reducer.close, Expr.close]
  | binary left op position => simp [foldFrame, Reducer.close, Expr.close, fold]

theorem foldFrame_grip {frame : Frame Expr} {f : Frame α} (h : R.foldFrame frame = .ok f) :
    f.grip = frame.grip ∧ f.nests = frame.nests := by
  cases frame with
  | sign op position => cases h; exact ⟨rfl, rfl⟩
  | group => cases h; exact ⟨rfl, rfl⟩
  | binary left op position =>
    obtain ⟨x, -, hx⟩ := bind_eq_ok_iff.1 h
    cases hx
    exact ⟨rfl, rfl⟩

theorem foldStack_depth {stack : List (Frame Expr)} {s : List (Frame α)}
    (h : R.foldStack stack = .ok s) : depth s = depth stack := by
  induction stack generalizing s with
  | nil => cases h; rfl
  | cons frame stack ih =>
    obtain ⟨below, hb, h⟩ := bind_eq_ok_iff.1 h
    obtain ⟨top, ht, h⟩ := bind_eq_ok_iff.1 h
    cases h
    have hd := ih hb
    simp only [depth, List.countP_cons, (R.foldFrame_grip ht).2] at hd ⊢
    rw [hd]

/-- Settling commutes with folding: it can be done on trees beforehand. -/
theorem foldStack_settle (least : Nat) (stack : List (Frame Expr)) (e : Expr) :
    (do let s ← R.foldStack stack; let v ← R.fold e; R.settle least s v) =
      (do
        let s ← R.foldStack (Expr.settle least stack e).1
        let v ← R.fold (Expr.settle least stack e).2
        return (s, v)) := by
  induction stack generalizing e with
  | nil => rfl
  | cons frame stack ih =>
    by_cases hg : frame.grip < least
    · simp only [Expr.settle, if_pos hg, foldStack, bind_assoc]
      refine bind_congr_ok fun below _ => bind_congr_ok fun top ht => ?_
      have hg' : top.grip < least := by rw [(R.foldFrame_grip ht).1]; exact hg
      simp [settle, hg']
    · simp only [Expr.settle, if_neg hg, ← ih, ← fold_close, foldStack, bind_assoc]
      refine bind_congr_ok fun below _ => bind_congr_ok fun top ht => ?_
      have hg' : ¬ top.grip < least := by rw [(R.foldFrame_grip ht).1]; exact hg
      simp [settle, hg']

end Reducer

/-- What stands behind a reading: a tree and the tokens after it, or the operands that were
complete when the fault was met. -/
inductive Reading where
  | whole (e : Expr) (rest : List Token)
  | stopped (held : List Expr) (fault : GrammarFault)

/-- The operands that frames hold, in the order of the text. -/
def Frame.held : List (Frame Expr) → List Expr
  | [] => []
  | .binary left _ _ :: stack => held stack ++ [left]
  | _ :: stack => held stack

namespace Reducer

variable {α : Type} (R : Reducer α)

def finish : Reading → Except Error (α × List Token)
  | .whole e rest => do return (← R.fold e, rest)
  | .stopped held fault => do
    R.foldAll held
    .error (.grammar fault)

theorem foldAll_append (es fs : List Expr) :
    R.foldAll (es ++ fs) = (do R.foldAll es; R.foldAll fs) := by
  induction es with
  | nil => rfl
  | cons e es ih => simp [foldAll, ih]

/-- After a fault only the failures of a stack count, not the frames made of it. -/
theorem foldStack_bind_error (stack : List (Frame Expr)) (x : Except Error (α × List Token)) :
    (do let _ ← R.foldStack stack; x) = (do R.foldAll (Frame.held stack); x) := by
  induction stack generalizing x with
  | nil => rfl
  | cons frame stack ih =>
    cases frame with
    | sign op position => simp [foldStack, foldFrame, Frame.held, ih]
    | group => simp [foldStack, foldFrame, Frame.held, ih]
    | binary left op position =>
      simp [foldStack, foldFrame, Frame.held, foldAll_append, foldAll, ih]

theorem foldStack_settle_bind {β : Type} (least : Nat) (stack : List (Frame Expr)) (e : Expr)
    (k : List (Frame α) × α → Except Error β) :
    (do let s ← R.foldStack stack; let v ← R.fold e; let r ← R.settle least s v; k r) =
      (do
        let s ← R.foldStack (Expr.settle least stack e).1
        let v ← R.fold (Expr.settle least stack e).2
        k (s, v)) := by
  have h := congrArg (· >>= k) (R.foldStack_settle least stack e)
  simpa [bind_assoc] using h

/-- A fault met with an operand in hand: the operand counts as complete. -/
theorem stopped_after_operand (stack : List (Frame Expr)) (e : Expr) (fault : GrammarFault) :
    (do let _ ← R.foldStack stack; let _ ← R.fold e; .error (.grammar fault)) =
      R.finish (.stopped (Frame.held stack ++ [e]) fault) := by
  simp [finish, foldAll_append, foldAll, foldStack_bind_error]

theorem resume_eq_stopped {base : Nat} {stack : List (Frame Expr)} {ts : List Token}
    {fault : GrammarFault}
    (h : ∀ s, R.foldStack stack = .ok s → R.readFrom base s none ts = .error (.grammar fault)) :
    R.resume base stack none ts = R.finish (.stopped (Frame.held stack) fault) := by
  simp only [finish, ← foldStack_bind_error, resume]
  exact bind_congr_ok h

/-- One token taken by a reader of trees. -/
inductive Takes (base : Nat) : List (Frame Expr) → Option Expr → Token →
    List (Frame Expr) → Option Expr → Prop
  | literal {stack t} : base + depth stack ≤ maxNesting → t.isLiteral = true →
      Takes base stack none t stack (some (.literal t))
  | group {stack t} : base + depth stack ≤ maxNesting → t.kind = .openGroup →
      Takes base stack none t (.group :: stack) none
  | sign {stack t op sign} : base + depth stack ≤ maxNesting → t.kind = .operator op →
      op.sign? = some sign → Takes base stack none t (.sign sign t.position :: stack) none
  | operator {stack stack' e e' t op} : t.binaryOp? = some op →
      Expr.settle op.completes stack e = (stack', e') →
      Takes base stack (some e) t (.binary e' op t.position :: stack') none
  | close {stack below e e' t} : t.kind = .closeGroup →
      Expr.settle 1 stack e = (.group :: below, e') → Takes base stack (some e) t below (some e')

/-- A fault at the next token or at the end, and the operands that are complete by then. -/
inductive Stops (base : Nat) : List (Frame Expr) → Option Expr → List Token →
    List Expr → GrammarFault → Prop
  | tooDeep {stack t ts} : maxNesting < base + depth stack →
      Stops base stack none (t :: ts) (Frame.held stack) (.tooDeep t.position)
  | noOperand {stack t ts} : base + depth stack ≤ maxNesting → t.isLiteral = false →
      t.kind ≠ .openGroup → t.binaryOp?.bind BinaryOp.sign? = none →
      Stops base stack none (t :: ts) (Frame.held stack) (.unexpected t.lexeme t.position)
  | missing {stack} : Stops base stack none [] (Frame.held stack) .endOfInput
  | inGroup {stack below e e' t ts} : Expr.settle 1 stack e = (.group :: below, e') →
      t.binaryOp? = none → t.kind ≠ .closeGroup →
      Stops base stack (some e) (t :: ts) (Frame.held (.group :: below) ++ [e'])
        (.unexpected t.lexeme t.position)
  | unclosed {stack below e e'} : Expr.settle 1 stack e = (.group :: below, e') →
      Stops base stack (some e) [] (Frame.held (.group :: below) ++ [e']) .endOfInput

/-- A reading to its end, token by token. -/
inductive Reads (base : Nat) : List (Frame Expr) → Option Expr → List Token → Reading → Prop
  | takes {stack stack' operand operand' t ts r} : Takes base stack operand t stack' operand' →
      Reads base stack' operand' ts r → Reads base stack operand (t :: ts) r
  | ends {stack e e' ts} : Expr.settle 1 stack e = ([], e') →
      (∀ t ∈ ts.head?, t.binaryOp? = none) → Reads base stack (some e) ts (.whole e' ts)
  | stops {stack operand ts held fault} : Stops base stack operand ts held fault →
      Reads base stack operand ts (.stopped held fault)

section

variable {base : Nat} {stack stack' : List (Frame Expr)} {operand operand' : Option Expr}
  {t : Token} {ts : List Token} {held : List Expr} {fault : GrammarFault} {e e' : Expr}

/-- Every reducer takes the token as a reader of trees does. -/
theorem Takes.resume (h : Takes base stack operand t stack' operand') (ts : List Token) :
    R.resume base stack operand (t :: ts) = R.resume base stack' operand' ts := by
  cases h with
  | literal hd ht =>
    unfold Token.isLiteral at ht
    split at ht
    · rename_i form hk
      refine bind_congr_ok fun s hs => ?_
      simp [readFrom, R.foldStack_depth hs, Nat.not_lt.2 hd, hk, fold]
    · cases ht
  | group hd hk =>
    simp only [Reducer.resume, foldStack, foldFrame, bind_assoc]
    refine bind_congr_ok fun s hs => ?_
    simp [readFrom, R.foldStack_depth hs, Nat.not_lt.2 hd, hk]
  | sign hd hk ho =>
    simp only [Reducer.resume, foldStack, foldFrame, bind_assoc]
    refine bind_congr_ok fun s hs => ?_
    simp [readFrom, R.foldStack_depth hs, Nat.not_lt.2 hd, hk, ho]
  | operator ho hs =>
    simp only [Reducer.resume, readFrom, ho, foldStack_settle_bind, hs]
    simp [foldStack, foldFrame]
  | close hc hs =>
    have ho : t.binaryOp? = none := by simp [Token.binaryOp?, hc]
    simp only [Reducer.resume, readFrom, ho, foldStack_settle_bind, hs]
    simp [foldStack, foldFrame, hc]

theorem Stops.resume (h : Stops base stack operand ts held fault) :
    R.resume base stack operand ts = R.finish (.stopped held fault) := by
  cases h with
  | tooDeep hd =>
    refine R.resume_eq_stopped fun s hs => ?_
    simp [readFrom, R.foldStack_depth hs, hd]
  | @noOperand t ts hd hl hg hs =>
    refine R.resume_eq_stopped fun s hstack => ?_
    have hdepth : ¬ maxNesting < base + depth s := by
      rw [R.foldStack_depth hstack]
      exact Nat.not_lt.2 hd
    cases hk : t.kind with
    | literal form => simp [Token.isLiteral, hk] at hl
    | openGroup => exact absurd hk hg
    | operator op =>
      have ho : op.sign? = none := by simpa [Token.binaryOp?, hk] using hs
      simp [readFrom, hdepth, hk, ho]
    | closeGroup => simp [readFrom, hdepth, hk]
    | blank => simp [readFrom, hdepth, hk]
  | missing => exact R.resume_eq_stopped fun s _ => rfl
  | inGroup hs ho hc =>
    rw [← stopped_after_operand]
    simp only [Reducer.resume, readFrom, ho, foldStack_settle_bind, hs]
    simp [foldStack, foldFrame, hc]
  | unclosed hs =>
    rw [← stopped_after_operand]
    simp only [Reducer.resume, readFrom, foldStack_settle_bind, hs]
    simp [foldStack, foldFrame]

theorem resume_of_settled (hs : Expr.settle 1 stack e = ([], e'))
    (ho : ∀ t ∈ ts.head?, t.binaryOp? = none) :
    R.resume base stack (some e) ts = R.finish (.whole e' ts) := by
  cases ts with
  | nil =>
    simp only [Reducer.resume, readFrom, foldStack_settle_bind, hs]
    rfl
  | cons t ts =>
    simp only [Reducer.resume, readFrom, ho t (by simp), foldStack_settle_bind, hs]
    rfl

/-- Every reducer reads by folding what stands behind the reading. -/
theorem Reads.resume {r : Reading} (h : Reads base stack operand ts r) :
    R.resume base stack operand ts = R.finish r := by
  induction h with
  | takes ht _ ih => rw [ht.resume, ih]
  | ends hs ho => exact R.resume_of_settled hs ho
  | stops hs => exact hs.resume R

/-- Where an operand is due, the depth and then the kind of the token decide. -/
theorem takes_or_stops (base : Nat) (stack : List (Frame Expr)) (t : Token) (ts : List Token) :
    (∃ stack' operand, Takes base stack none t stack' operand) ∨
      ∃ held fault, Stops base stack none (t :: ts) held fault := by
  by_cases hd : maxNesting < base + depth stack
  · exact .inr ⟨_, _, .tooDeep hd⟩
  have hd := Nat.not_lt.1 hd
  cases hk : t.kind with
  | literal form => exact .inl ⟨_, _, .literal hd (by simp [Token.isLiteral, hk])⟩
  | openGroup => exact .inl ⟨_, _, .group hd hk⟩
  | operator op =>
    cases ho : op.sign? with
    | some sign => exact .inl ⟨_, _, .sign hd hk ho⟩
    | none =>
      exact .inr ⟨_, _, .noOperand hd (by simp [Token.isLiteral, hk]) (by simp [hk])
        (by simp [Token.binaryOp?, hk, ho])⟩
  | closeGroup =>
    exact .inr ⟨_, _, .noOperand hd (by simp [Token.isLiteral, hk]) (by simp [hk])
      (by simp [Token.binaryOp?, hk])⟩
  | blank =>
    exact .inr ⟨_, _, .noOperand hd (by simp [Token.isLiteral, hk]) (by simp [hk])
      (by simp [Token.binaryOp?, hk])⟩

/-- Nothing but a group is left open by a token that is no operator. -/
theorem settle_one (stack : List (Frame Expr)) (e : Expr) :
    (∃ e', Expr.settle 1 stack e = ([], e')) ∨
      ∃ below e', Expr.settle 1 stack e = (.group :: below, e') := by
  rcases hs : Expr.settle 1 stack e with ⟨_ | ⟨frame, below⟩, e'⟩
  · exact .inl ⟨e', rfl⟩
  · obtain rfl := Frame.eq_group_of_grip (Expr.settle_top hs)
    exact .inr ⟨below, e', rfl⟩

theorem exists_reads (base : Nat) (stack : List (Frame Expr)) (operand : Option Expr)
    (ts : List Token) : ∃ r, Reads base stack operand ts r := by
  induction ts generalizing stack operand with
  | nil =>
    cases operand with
    | none => exact ⟨_, .stops .missing⟩
    | some e =>
      rcases settle_one stack e with ⟨e', hs⟩ | ⟨below, e', hs⟩
      · exact ⟨_, .ends hs (by simp)⟩
      · exact ⟨_, .stops (.unclosed hs)⟩
  | cons t ts ih =>
    have go {stack' operand'} (h : Takes base stack operand t stack' operand') :
        ∃ r, Reads base stack operand (t :: ts) r := by
      obtain ⟨r, hr⟩ := ih stack' operand'
      exact ⟨r, .takes h hr⟩
    cases operand with
    | none =>
      rcases takes_or_stops base stack t ts with ⟨stack', operand', h⟩ | ⟨held, fault, h⟩
      · exact go h
      · exact ⟨_, .stops h⟩
    | some e =>
      cases ho : t.binaryOp? with
      | some op => exact go (.operator ho rfl)
      | none =>
        rcases settle_one stack e with ⟨e', hs⟩ | ⟨below, e', hs⟩
        · exact ⟨_, .ends hs (by simpa using ho)⟩
        · by_cases hc : t.kind = .closeGroup
          · exact go (.close hc hs)
          · exact ⟨_, .stops (.inGroup hs ho hc)⟩

end

theorem readPart_of_reads {ts : List Token} {r : Reading} (h : Reads 0 [] none ts r) :
    R.readPart 0 ts = R.finish r := by
  rw [← h.resume R]
  rfl

/-- A text has one tree for all reducers, or it has a fault and the operands that go before it. -/
theorem read_eq_fold_or_stopped (ts : List Token) :
    (∃ e, ∀ {α : Type} (R : Reducer α), R.read ts = R.fold e) ∨
      ∃ held fault, ∀ {α : Type} (R : Reducer α),
        R.read ts = (do R.foldAll held; .error (.grammar fault)) := by
  obtain ⟨r, hr⟩ := exists_reads 0 [] none ts
  have hpart : ∀ {α : Type} (R : Reducer α), R.readPart 0 ts = R.finish r := fun R =>
    R.readPart_of_reads hr
  cases r with
  | whole e rest =>
    cases rest with
    | nil => exact .inl ⟨e, fun R => by simp [read, hpart, finish]⟩
    | cons t rest =>
      refine .inr ⟨[e], .unexpected t.lexeme t.position, fun R => ?_⟩
      simp [read, hpart, finish, foldAll]
  | stopped held fault => exact .inr ⟨held, fault, fun R => by simp [read, hpart, finish]⟩

end Reducer

namespace Expr

@[simp] theorem fold_reducer (e : Expr) : reducer.fold e = .ok e := by
  induction e with
  | literal t => rfl
  | signed op e position ih =>
    rw [Reducer.fold, ih]
    rfl
  | binary op left right position ihl ihr =>
    rw [Reducer.fold, ihl, ihr]
    rfl

@[simp] theorem foldAll_reducer (es : List Expr) : reducer.foldAll es = .ok () := by
  induction es with
  | nil => rfl
  | cons e es ih => simp [Reducer.foldAll, ih]

end Expr

/-- Where a tree can be built, every reducer folds it. -/
theorem Reducer.read_eq_fold {α : Type} (R : Reducer α) {ts : List Token} {e : Expr}
    (h : Expr.reducer.read ts = .ok e) : R.read ts = R.fold e := by
  rcases read_eq_fold_or_stopped ts with ⟨e', he⟩ | ⟨held, fault, hf⟩
  · rw [he Expr.reducer, Expr.fold_reducer] at h
    cases h
    exact he R
  · rw [hf Expr.reducer, Expr.foldAll_reducer] at h
    cases h

/-- A reducer that reads to the end reads a tree. -/
theorem Reducer.exists_tree {α : Type} (R : Reducer α) {ts : List Token} {v : α}
    (h : R.read ts = .ok v) : ∃ e, Expr.reducer.read ts = .ok e ∧ R.fold e = .ok v := by
  rcases read_eq_fold_or_stopped ts with ⟨e, he⟩ | ⟨held, fault, hf⟩
  · exact ⟨e, by rw [he, Expr.fold_reducer], by rw [← he, h]⟩
  · rw [hf R] at h
    obtain ⟨_, -, h⟩ := bind_eq_ok_iff.1 h
    cases h

end ClockCalc

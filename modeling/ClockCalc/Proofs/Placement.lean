import ClockCalc.Expr.Evaluation
import ClockCalc.Postfix
import ClockCalc.Proofs.Except

/-! Positions go from the tokens into the errors and decide nothing on the way. If every token is
put to another place, an expression is read as before: it has the same value, or the same error with
its position put to that place. So an error has no position but that of a token. -/

namespace ClockCalc

variable {α : Type}

/-- The token at another place. -/
def Token.moved (f : Nat → Nat) (t : Token) : Token := { t with position := f t.position }

namespace GrammarFault

def moved (f : Nat → Nat) : GrammarFault → GrammarFault
  | unexpected token position => unexpected token (f position)
  | endOfInput => endOfInput
  | incompatible op left right position => incompatible op left right (f position)
  | tooDeep position => tooDeep (f position)
  | tooLarge literal position => tooLarge literal (f position)

def positions : GrammarFault → List Nat
  | unexpected _ position => [position]
  | endOfInput => []
  | incompatible _ _ _ position => [position]
  | tooDeep position => [position]
  | tooLarge _ position => [position]

end GrammarFault

namespace RunFault

def moved (f : Nat → Nat) : RunFault → RunFault
  | arithmetic cause position => arithmetic cause (position.map f)
  | fault => fault

def positions : RunFault → List Nat
  | arithmetic _ position => position.toList
  | _ => []

end RunFault

namespace Error

/-- The error with every position in it replaced. -/
def moved (f : Nat → Nat) : Error → Error
  | unreadable cause => unreadable { cause with position := f cause.position }
  | grammar fault => grammar (fault.moved f)
  | run fault => run (fault.moved f)
  | wrongKind wanted found => wrongKind wanted found

def positions : Error → List Nat
  | unreadable cause => [cause.position]
  | grammar fault => fault.positions
  | run fault => fault.positions
  | wrongKind _ _ => []

/-- Where nothing has moved, every position has stayed. -/
theorem eq_of_moved_eq_self {f : Nat → Nat} {err : Error} (h : err.moved f = err) :
    ∀ position ∈ err.positions, f position = position := by
  intro position hp
  cases err with
  | unreadable cause =>
    have hcause : f cause.position = cause.position :=
      congrArg Unreadable.position (Error.unreadable.inj h)
    rwa [List.mem_singleton.1 hp]
  | grammar fault =>
    have hfault := Error.grammar.inj h
    cases fault <;> simp_all [GrammarFault.moved, positions, GrammarFault.positions]
  | run fault =>
    have hfault := Error.run.inj h
    cases fault with
    | arithmetic cause place =>
      cases place <;> simp_all [RunFault.moved, positions, RunFault.positions]
    | unsupported | malformed | missingOperand | leftover => cases hp
  | wrongKind wanted found => cases hp

end Error

namespace Token

variable (f : Nat → Nat) (t : Token)

@[simp] theorem kind_moved : (t.moved f).kind = t.kind := rfl

@[simp] theorem lexeme_moved : (t.moved f).lexeme = t.lexeme := rfl

@[simp] theorem binaryOp?_moved : (t.moved f).binaryOp? = t.binaryOp? := rfl

theorem map_moved_congr {f g : Nat → Nat} {ts : List Token}
    (h : ∀ t ∈ ts, f t.position = g t.position) :
    ts.map (moved f) = ts.map (moved g) := by
  refine List.map_congr_left ?_
  intro t ht
  rw [moved, moved, h t ht]

theorem map_moved_of_fixed {f : Nat → Nat} {ts : List Token}
    (h : ∀ t ∈ ts, f t.position = t.position) : ts.map (moved f) = ts := by
  rw [map_moved_congr (g := id) h]
  exact List.map_id ts

end Token

/-- Moving the tokens moves the positions in the error and changes nothing else. -/
def Uniform (x : List Token → Except Error α) : Prop :=
  ∀ (f : Nat → Nat) (ts : List Token), x (ts.map (Token.moved f)) = (x ts).mapError (Error.moved f)

/-- An error has no position but that of a token: any other could be moved alone. -/
theorem Uniform.exists_token {x : List Token → Except Error α} (hx : Uniform x) {ts : List Token}
    {err : Error} (h : x ts = .error err) :
    ∀ position ∈ err.positions, ∃ t ∈ ts, t.position = position := by
  intro position hp
  let f : Nat → Nat := fun p => if ∃ t ∈ ts, t.position = p then p else p + 1
  have hts : ts.map (Token.moved f) = ts :=
    Token.map_moved_of_fixed fun t ht => if_pos ⟨t, ht, rfl⟩
  have hself : err.moved f = err := by
    have hmoved := hx f ts
    rw [hts, h] at hmoved
    exact (Except.error.inj hmoved).symm
  have hfixed : f position = position := Error.eq_of_moved_eq_self hself position hp
  by_cases ht : ∃ t ∈ ts, t.position = position
  · exact ht
  · rw [show f position = position + 1 from if_neg ht] at hfixed
    exact absurd hfixed (Nat.succ_ne_self position)

namespace Reducer

variable (R : Reducer α)

/-- A reducer that hands positions on and does nothing else with them. -/
structure IsUniform : Prop where
  literal (f : Nat → Nat) (t : Token) :
    R.literal (t.moved f) = (R.literal t).mapError (Error.moved f)
  signed (f : Nat → Nat) (op : UnaryOp) (v : α) (position : Nat) :
    R.signed op v (f position) = (R.signed op v position).mapError (Error.moved f)
  binary (f : Nat → Nat) (op : BinaryOp) (left right : α) (position : Nat) :
    R.binary op left right (f position) =
      (R.binary op left right position).mapError (Error.moved f)

end Reducer

namespace Frame

def moved (f : Nat → Nat) : Frame α → Frame α
  | sign op position => sign op (f position)
  | group => group
  | binary left op position => binary left op (f position)

@[simp] theorem grip_moved (f : Nat → Nat) (frame : Frame α) :
    (frame.moved f).grip = frame.grip := by
  cases frame <;> rfl

@[simp] theorem nests_moved (f : Nat → Nat) (frame : Frame α) :
    (frame.moved f).nests = frame.nests := by
  cases frame <;> rfl

end Frame

namespace Reducer

variable {R : Reducer α} (f : Nat → Nat)

@[simp] theorem depth_moved (stack : List (Frame α)) :
    depth (stack.map (Frame.moved f)) = depth stack := by
  simp [depth, List.countP_map, Function.comp_def]

theorem IsUniform.close (hR : R.IsUniform) (v : α) (frame : Frame α) :
    R.close v (frame.moved f) = (R.close v frame).mapError (Error.moved f) := by
  cases frame with
  | sign op position => exact hR.signed f op v position
  | group => rfl
  | binary left op position => exact hR.binary f op left v position

theorem IsUniform.settle (hR : R.IsUniform) (least : Nat) (stack : List (Frame α)) (v : α) :
    R.settle least (stack.map (Frame.moved f)) v =
      ((R.settle least stack v).map (Prod.map (List.map (Frame.moved f)) id)).mapError
        (Error.moved f) := by
  induction stack generalizing v with
  | nil => rfl
  | cons frame stack ih =>
    unfold Reducer.settle
    rw [List.map_cons]
    simp only [Frame.grip_moved]
    split
    · rfl
    · rw [hR.close f v frame]
      cases R.close v frame with
      | error err => rfl
      | ok w => exact ih w

/-- The outcome of a reading, with the tokens after it and the error in it moved. -/
def carried (x : Except Error (α × List Token)) : Except Error (α × List Token) :=
  (x.map (Prod.map id (List.map (Token.moved f)))).mapError (Error.moved f)

/-- Whatever is open, reading goes on in the moved tokens as in these. -/
def Carries (R : Reducer α) (f : Nat → Nat) (base : Nat) (ts : List Token) : Prop :=
  ∀ (stack : List (Frame α)) (operand : Option α),
    R.readFrom base (stack.map (Frame.moved f)) operand (ts.map (Token.moved f)) =
      carried f (R.readFrom base stack operand ts)

theorem IsUniform.carries_nil (hR : R.IsUniform) (base : Nat) : Carries R f base [] := by
  intro stack operand
  cases operand with
  | none => rfl
  | some v =>
    simp only [List.map_nil, readFrom, hR.settle f]
    cases R.settle 1 stack v with
    | error err => rfl
    | ok settled => obtain ⟨_ | ⟨frame, below⟩, w⟩ := settled <;> rfl

/-- Where an operand is due the depth and the kind of the token decide. -/
theorem IsUniform.carries_none (hR : R.IsUniform) {base : Nat} {ts : List Token}
    (h : Carries R f base ts) (t : Token) (stack : List (Frame α)) :
    R.readFrom base (stack.map (Frame.moved f)) none ((t :: ts).map (Token.moved f)) =
      carried f (R.readFrom base stack none (t :: ts)) := by
  simp only [List.map_cons, readFrom, depth_moved, Token.kind_moved]
  split
  · rfl
  · cases t.kind with
    | literal form =>
      simp only [hR.literal f t]
      cases R.literal t with
      | error err => rfl
      | ok v => exact h stack (some v)
    | openGroup => exact h (.group :: stack) none
    | operator op =>
      cases hs : op.sign? with
      | some sign =>
        simp only [hs]
        exact h (.sign sign t.position :: stack) none
      | none =>
        simp only [hs]
        rfl
    | closeGroup => rfl
    | blank => rfl

/-- Behind an operand it is the operator of the token, or else whether a group is open. -/
theorem IsUniform.carries_some (hR : R.IsUniform) {base : Nat} {ts : List Token}
    (h : Carries R f base ts) (t : Token) (stack : List (Frame α)) (v : α) :
    R.readFrom base (stack.map (Frame.moved f)) (some v) ((t :: ts).map (Token.moved f)) =
      carried f (R.readFrom base stack (some v) (t :: ts)) := by
  simp only [List.map_cons, readFrom, Token.binaryOp?_moved, hR.settle f]
  cases t.binaryOp? with
  | some op =>
    simp only
    cases R.settle op.completes stack v with
    | error err => rfl
    | ok settled => exact h (.binary settled.2 op t.position :: settled.1) none
  | none =>
    simp only
    cases R.settle 1 stack v with
    | error err => rfl
    | ok settled =>
      obtain ⟨_ | ⟨frame, below⟩, w⟩ := settled
      · rfl
      · by_cases hc : t.kind = .closeGroup
        · simpa [Except.map, Prod.map, hc] using h below (some w)
        · simp [Except.map, Prod.map, hc]
          rfl

theorem IsUniform.carries (hR : R.IsUniform) (base : Nat) (ts : List Token) :
    Carries R f base ts := by
  induction ts with
  | nil => exact hR.carries_nil f base
  | cons t ts ih =>
    intro stack operand
    cases operand with
    | none => exact hR.carries_none f ih t stack
    | some v => exact hR.carries_some f ih t stack v

theorem IsUniform.read (hR : R.IsUniform) : Uniform R.read := by
  intro f ts
  have hpart := hR.carries f 0 ts [] none
  rw [List.map_nil] at hpart
  unfold Reducer.read readPart
  rw [hpart]
  cases R.readFrom 0 [] none ts with
  | error err => rfl
  | ok result => obtain ⟨v, _ | ⟨t, rest⟩⟩ := result <;> rfl

end Reducer

theorem Kind.expect_cases (wanted : Option Kind) (found : Kind) :
    Kind.expect wanted found = .ok () ∨
      ∃ kind, Kind.expect wanted found = .error (.wrongKind kind found) := by
  cases wanted with
  | none => exact .inl rfl
  | some kind =>
    by_cases hk : kind = found
    · exact .inl (if_pos hk)
    · exact .inr ⟨kind, if_neg hk⟩

/-- The kind of a value that is asked for has no place in the text. -/
theorem Uniform.expect {x : List Token → Except Error α} (hx : Uniform x) (wanted : Option Kind)
    (kind : α → Kind) :
    Uniform fun ts => do
      let a ← x ts
      Kind.expect wanted (kind a)
      return a := by
  intro f ts
  simp only [hx f ts]
  cases x ts with
  | error err => rfl
  | ok a =>
    simp only [mapError_ok, ok_bind]
    rcases Kind.expect_cases wanted (kind a) with h | ⟨asked, h⟩
    · rw [h]
      rfl
    · rw [h]
      rfl

theorem Kind.check_moved (op : BinaryOp) (left right : Kind) (position : Nat) (f : Nat → Nat) :
    Kind.check op left right (f position) =
      (Kind.check op left right position).mapError (GrammarFault.moved f) := by
  unfold Kind.check
  cases Kind.combine? op left right <;> rfl

namespace Value

theorem ofLiteral_moved (f : Nat → Nat) (t : Token) :
    ofLiteral (t.moved f) = (ofLiteral t).mapError (GrammarFault.moved f) := by
  unfold ofLiteral
  rw [Token.kind_moved]
  split
  · rw [Token.lexeme_moved]
    split <;> rfl
  · rfl

theorem isUniform_reducer : reducer.IsUniform where
  literal f t := by
    simp only [reducer, ofLiteral_moved]
    cases ofLiteral t <;> rfl
  signed f op v position := by
    simp only [reducer]
    cases v.applySign op <;> rfl
  binary f op left right position := by
    simp only [reducer, Kind.check_moved]
    cases Kind.check op left.kind right.kind position with
    | error fault => rfl
    | ok kind =>
      simp only [mapError_ok, ok_bind]
      cases apply op left right with
      | ok v => rfl
      | error fault => cases fault <;> rfl

theorem uniform_ofTokens (wanted : Option Kind) : Uniform (ofTokens wanted) :=
  isUniform_reducer.read.expect wanted kind

end Value

namespace Postfix

theorem isUniform_reducer : reducer.IsUniform where
  literal f t := by
    simp only [reducer, Value.ofLiteral_moved]
    cases Value.ofLiteral t <;> rfl
  signed f op p position := rfl
  binary f op left right position := by
    simp only [reducer, Kind.check_moved]
    cases Kind.check op left.kind right.kind position <;> rfl

theorem uniform_ofTokens (wanted : Option Kind) : Uniform (ofTokens wanted) :=
  isUniform_reducer.read.expect wanted kind

end Postfix

end ClockCalc

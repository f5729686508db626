import ClockCalc.Postfix
import ClockCalc.Proofs.Tree

/-! The table of kinds says which operations have a meaning, and the arithmetic does these and no
others. So computing an expression and listing it go through the same checks: at every operation the
kind that the listing has derived is the kind of the value that has been computed, and the two part
only where a computation stops for want of a result. -/

namespace ClockCalc

theorem Kind.check_eq_ok_iff {op : BinaryOp} {left right kind : Kind} {position : Nat} :
    check op left right position = .ok kind ↔ combine? op left right = some kind := by
  unfold check
  split <;> simp_all

namespace Value

theorem kind_of_inRange {d : Option Duration} {v : Value} (h : inRange d = .ok v) :
    v.kind = .time := by
  cases d with
  | none => cases h
  | some d => cases h; rfl

theorem kind_of_map_number {x : Except ArithmeticFault Number} {v : Value}
    (h : x.map number = .ok v) : v.kind = .number := by
  obtain ⟨n, -, rfl⟩ := map_eq_ok_iff.1 h
  rfl

theorem kind_of_map_time {x : Except ArithmeticFault Duration} {v : Value}
    (h : x.map time = .ok v) : v.kind = .time := by
  obtain ⟨d, -, rfl⟩ := map_eq_ok_iff.1 h
  rfl

theorem kind_of_applySign {op : UnaryOp} {v w : Value} (h : v.applySign op = .ok w) :
    w.kind = v.kind := by
  cases op with
  | plus => cases h; rfl
  | minus =>
    cases v with
    | number n => cases h; rfl
    | time d => exact kind_of_inRange h

theorem result_or_fault {x : Except ArithmeticFault Value} {kind : Kind}
    (hk : ∀ v, x = .ok v → v.kind = kind) :
    (∃ v, x.mapError Fault.arithmetic = .ok v ∧ v.kind = kind) ∨
      ∃ cause, x.mapError Fault.arithmetic = .error (.arithmetic cause) := by
  cases x with
  | ok v => exact .inl ⟨v, rfl, hk v rfl⟩
  | error cause => exact .inr ⟨cause, rfl⟩

/-- An operation between kinds that combine has a result of the kind they combine to, or an
arithmetic fault. -/
theorem apply_of_combine {op : BinaryOp} {l r : Value} {kind : Kind}
    (h : Kind.combine? op l.kind r.kind = some kind) :
    (∃ v, apply op l r = .ok v ∧ v.kind = kind) ∨
      ∃ cause, apply op l r = .error (.arithmetic cause) := by
  cases l with
  | number a =>
    cases r with
    | number b =>
      obtain rfl : kind = .number := by cases op <;> cases h <;> rfl
      exact result_or_fault fun v hv => kind_of_map_number hv
    | time d =>
      cases op <;> cases h
      exact result_or_fault fun v hv => kind_of_inRange hv
  | time c =>
    cases r with
    | number b =>
      cases op <;> cases h
      · exact result_or_fault fun v hv => kind_of_inRange hv
      · exact result_or_fault fun v hv => kind_of_map_time hv
    | time d =>
      cases op <;> cases h
      · exact result_or_fault fun v hv => kind_of_inRange hv
      · exact result_or_fault fun v hv => kind_of_inRange hv

variable {op : BinaryOp} {l r : Value}

/-- The operations of time leave out what the table leaves out, and pairs of numbers. -/
theorem applyTime?_eq_none_iff :
    applyTime? op l r = none ↔
      Kind.combine? op l.kind r.kind = none ∨ l.kind = .number ∧ r.kind = .number := by
  cases l with
  | number a =>
    cases r with
    | number b => cases op <;> simp [applyTime?, kind]
    | time d => cases op <;> simp [applyTime?, Kind.combine?, kind]
  | time c =>
    cases r with
    | number b => cases op <;> simp [applyTime?, Kind.combine?, kind]
    | time d => cases op <;> simp [applyTime?, Kind.combine?, kind]

theorem apply_of_combine_eq_none (h : Kind.combine? op l.kind r.kind = none) :
    apply op l r = .error (.unsupported l op r) := by
  have htime : applyTime? op l r = none := applyTime?_eq_none_iff.2 (.inl h)
  cases l with
  | number a =>
    cases r with
    | number b => cases op <;> cases h
    | time d => simp only [apply, htime]
  | time c => simp only [apply, htime]

/-- An operation that is done at a place of the text, or at none, ends in one of three ways. -/
theorem located_apply_cases (op : BinaryOp) (l r : Value) (position : Option Nat) :
    let outcome := (apply op l r).mapError (·.located position)
    Kind.combine? op l.kind r.kind = none ∧ outcome = .error (.unsupported l op r) ∨
      (∃ v, Kind.combine? op l.kind r.kind = some v.kind ∧ outcome = .ok v) ∨
      ∃ kind cause, Kind.combine? op l.kind r.kind = some kind ∧
        outcome = .error (.arithmetic cause position) := by
  intro outcome
  cases htable : Kind.combine? op l.kind r.kind with
  | none =>
    refine .inl ⟨rfl, ?_⟩
    simp only [outcome, apply_of_combine_eq_none htable]
    rfl
  | some kind =>
    rcases apply_of_combine htable with ⟨v, happly, rfl⟩ | ⟨cause, happly⟩
    · exact .inr (.inl ⟨v, rfl, mapError_eq_ok_iff.2 happly⟩)
    · refine .inr (.inr ⟨kind, cause, rfl, ?_⟩)
      simp only [outcome, happly]
      rfl

/-- The table of kinds and the arithmetic agree on all values, also on zero divisors and on times at
the limits. An operation is unsupported exactly where the table has no kind for its result. Where it
has one, the result is of this kind, or there is none for an arithmetic reason. -/
theorem arithmetic_follows_table (op : BinaryOp) (left right : Value) (position : Option Nat) :
    let outcome := (apply op left right).mapError (·.located position)
    (∀ l o r, outcome = .error (.unsupported l o r) ↔
      Kind.combine? op left.kind right.kind = none ∧ l = left ∧ o = op ∧ r = right) ∧
    (∀ v, outcome = .ok v → Kind.combine? op left.kind right.kind = some v.kind) ∧
    (∀ kind, Kind.combine? op left.kind right.kind = some kind →
      (∃ v, outcome = .ok v ∧ v.kind = kind) ∨
        ∃ cause, outcome = .error (.arithmetic cause position)) ∧
    (left.kind = .time ∨ right.kind = .time →
      (applyTime? op left right = none ↔ Kind.combine? op left.kind right.kind = none)) := by
  intro outcome
  have htime : left.kind = .time ∨ right.kind = .time →
      (applyTime? op left right = none ↔ Kind.combine? op left.kind right.kind = none) := by
    intro hkinds
    rw [applyTime?_eq_none_iff, or_iff_left]
    rintro ⟨hleft, hright⟩
    rcases hkinds with h | h
    · exact absurd (hleft.symm.trans h) (by decide)
    · exact absurd (hright.symm.trans h) (by decide)
  rcases located_apply_cases op left right position with
    ⟨htable, houtcome⟩ | ⟨v, htable, houtcome⟩ | ⟨kind, cause, htable, houtcome⟩
  · refine ⟨fun l o r => ?_, fun v hv => ?_, fun kind hkind => ?_, htime⟩
    · simp [outcome, houtcome, htable, eq_comm]
    · cases houtcome.symm.trans hv
    · cases htable.symm.trans hkind
  · refine ⟨fun l o r => ?_, fun w hw => ?_, fun kind hkind => ?_, htime⟩
    · simp [outcome, houtcome, htable]
    · obtain rfl : v = w := Except.ok.inj (houtcome.symm.trans hw)
      exact htable
    · exact .inl ⟨v, houtcome, Option.some.inj (htable.symm.trans hkind)⟩
  · refine ⟨fun l o r => ?_, fun w hw => ?_, fun k hk => ?_, htime⟩
    · simp [outcome, houtcome, htable]
    · cases houtcome.symm.trans hw
    · exact .inr ⟨cause, houtcome⟩

/-- The quotient that does not fit is allowed by the table. -/
theorem arithmetic_follows_table_at_limit :
    let least : Value := time ⟨.least⟩
    let minusOne : Value := number (.integer ⟨-1, by decide, by decide⟩)
    (apply .div least minusOne).mapError (·.located (some 4)) =
        .error (.arithmetic .outOfRange (some 4)) ∧
      (applyTime? .div least minusOne = none ↔
        Kind.combine? .div least.kind minusOne.kind = none) ∧
      applyTime? .div least minusOne ≠ none := by
  intro least minusOne
  obtain ⟨-, -, -, htime⟩ := arithmetic_follows_table .div least minusOne (some 4)
  exact ⟨rfl, htime (.inl rfl), fun h => nomatch h⟩

end Value

/-- A refusal that no computed value has a part in. -/
def Error.IsStatic : Error → Prop
  | unreadable _ => False
  | grammar _ => True
  | run _ => False
  | wrongKind _ _ => True

/-- A computation that got to an operator and found no result there. -/
def StopsAtOperator {α : Type} (x : Except Error α) : Prop :=
  ∃ cause position, x = .error (.run (.arithmetic cause (some position)))

/-- A computation that checks and never computes. -/
def ChecksOnly {α : Type} (y : Except Error α) : Prop := ∀ e, y = .error e → e.IsStatic

/-- How a computation and its listing compare. They are refused together. Where the computation
stops at an operator nothing is known of the listing, for the rest of the text is not read. -/
inductive Agree {α β : Type} (same : α → β → Prop) : Except Error α → Except Error β → Prop where
  | value {a : α} {b : β} (h : same a b) : Agree same (.ok a) (.ok b)
  | refused {e : Error} (h : e.IsStatic) : Agree same (.error e) (.error e)
  | stopped {x : Except Error α} {y : Except Error β} (hx : StopsAtOperator x)
      (hy : ChecksOnly y) : Agree same x y

section

variable {α β γ δ : Type}

theorem ChecksOnly.ok (a : α) : ChecksOnly (.ok a) := by
  intro e h
  cases h

theorem ChecksOnly.error {e : Error} (h : e.IsStatic) : ChecksOnly (.error e : Except Error α) := by
  intro e' h'
  cases h'
  exact h

theorem ChecksOnly.bind {y : Except Error α} {g : α → Except Error β} (hy : ChecksOnly y)
    (hg : ∀ a, ChecksOnly (g a)) : ChecksOnly (y >>= g) := by
  cases y with
  | error e => exact .error (hy e rfl)
  | ok a => exact hg a

theorem StopsAtOperator.bind {x : Except Error α} (f : α → Except Error β)
    (hx : StopsAtOperator x) : StopsAtOperator (x >>= f) := by
  obtain ⟨cause, position, rfl⟩ := hx
  exact ⟨cause, position, rfl⟩

theorem Agree.bind {same : α → β → Prop} {same' : γ → δ → Prop} {x : Except Error α}
    {y : Except Error β} {f : α → Except Error γ} {g : β → Except Error δ}
    (h : Agree same x y) (hfg : ∀ a b, same a b → Agree same' (f a) (g b))
    (hg : ∀ b, ChecksOnly (g b)) : Agree same' (x >>= f) (y >>= g) := by
  cases h with
  | value h => exact hfg _ _ h
  | refused h => exact .refused h
  | stopped hx hy => exact .stopped (hx.bind f) (hy.bind hg)

section

variable {same : α → β → Prop} {x : Except Error α} {y : Except Error β}

theorem Agree.of_left_ok (h : Agree same x y) {a : α} (hx : x = .ok a) :
    ∃ b, y = .ok b ∧ same a b := by
  cases h with
  | value h => cases hx; exact ⟨_, rfl, h⟩
  | refused h => cases hx
  | stopped hs hy => obtain ⟨cause, position, rfl⟩ := hs; cases hx

theorem Agree.of_left_error (h : Agree same x y) {e : Error} (hx : x = .error e) :
    e.IsStatic ∧ y = .error e ∨ StopsAtOperator x := by
  cases h with
  | value h => cases hx
  | refused h => cases hx; exact .inl ⟨h, rfl⟩
  | stopped hs hy => exact .inr hs

theorem Agree.of_right_ok (h : Agree same x y) {b : β} (hy : y = .ok b) :
    (∃ a, x = .ok a ∧ same a b) ∨ StopsAtOperator x := by
  cases h with
  | value h => cases hy; exact .inl ⟨_, rfl, h⟩
  | refused h => cases hy
  | stopped hs _ => exact .inr hs

theorem Agree.of_right_error (h : Agree same x y) {e : Error} (hy : y = .error e) :
    x = .error e ∨ StopsAtOperator x := by
  cases h with
  | value h => cases hy
  | refused h => cases hy; exact .inl rfl
  | stopped hs _ => exact .inr hs

end

theorem StopsAtOperator.not_static {x : Except Error α} {e : Error} (h : StopsAtOperator x)
    (hx : x = .error e) : ¬ e.IsStatic := by
  obtain ⟨cause, position, rfl⟩ := h
  cases hx
  exact id

end

namespace Postfix

theorem checksOnly_literal (t : Token) : ChecksOnly (reducer.literal t) := by
  refine ChecksOnly.bind ?_ fun v => .ok _
  cases h : Value.ofLiteral t with
  | ok v => exact .ok v
  | error fault => exact .error trivial

theorem checksOnly_check (op : BinaryOp) (l r : Kind) (position : Nat) :
    ChecksOnly ((Kind.check op l r position).mapError Error.grammar) := by
  cases h : Kind.check op l r position with
  | ok kind => exact .ok kind
  | error fault => exact .error trivial

theorem checksOnly_binary (op : BinaryOp) (p q : Postfix) (position : Nat) :
    ChecksOnly (reducer.binary op p q position) :=
  ChecksOnly.bind (checksOnly_check op _ _ position) fun _ => .ok _

theorem checksOnly_expect (wanted : Option Kind) (found : Kind) :
    ChecksOnly (Kind.expect wanted found) := by
  cases wanted with
  | none => exact .ok ()
  | some kind =>
    simp only [Kind.expect]
    split
    · exact .ok ()
    · exact .error trivial

theorem checksOnly_fold (e : Expr) : ChecksOnly (reducer.fold e) := by
  induction e with
  | literal t => exact checksOnly_literal t
  | signed op e position ih => exact ih.bind fun p => .ok _
  | binary op left right position ihl ihr =>
    exact ihl.bind fun p => ihr.bind fun q => checksOnly_binary op p q position

theorem checksOnly_foldAll (es : List Expr) : ChecksOnly (reducer.foldAll es) := by
  induction es with
  | nil => exact .ok ()
  | cons e es ih => exact (checksOnly_fold e).bind fun _ => ih

end Postfix

/-- The kind that a listing has derived is that of the value. -/
def SameKind (v : Value) (p : Postfix) : Prop := p.kind = v.kind

namespace Value

theorem agree_literal (t : Token) :
    Agree SameKind (reducer.literal t) (Postfix.reducer.literal t) := by
  simp only [reducer, Postfix.reducer]
  cases ofLiteral t with
  | ok v => exact .value rfl
  | error fault => exact .refused trivial

theorem agree_signed (op : UnaryOp) (position : Nat) {v : Value} {p : Postfix}
    (h : SameKind v p) :
    Agree SameKind (reducer.signed op v position) (Postfix.reducer.signed op p position) := by
  simp only [reducer, Postfix.reducer]
  cases hv : v.applySign op with
  | ok w => exact .value (h.trans (kind_of_applySign hv).symm)
  | error cause => exact .stopped ⟨cause, position, rfl⟩ (.ok _)

theorem agree_binary (op : BinaryOp) (position : Nat) {v w : Value} {p q : Postfix}
    (hv : SameKind v p) (hw : SameKind w q) :
    Agree SameKind (reducer.binary op v w position) (Postfix.reducer.binary op p q position) := by
  unfold SameKind at hv hw
  simp only [reducer, Postfix.reducer, Kind.check, hv, hw]
  cases hc : Kind.combine? op v.kind w.kind with
  | none => exact .refused (e := .grammar _) trivial
  | some kind =>
    rcases apply_of_combine hc with ⟨u, hu, hk⟩ | ⟨cause, hu⟩
    · rw [hu]
      exact .value hk.symm
    · rw [hu]
      exact .stopped ⟨cause, position, rfl⟩ (.ok _)

theorem agree_fold (e : Expr) : Agree SameKind (reducer.fold e) (Postfix.reducer.fold e) := by
  induction e with
  | literal t => exact agree_literal t
  | signed op e position ih =>
    exact ih.bind (fun v p h => agree_signed op position h) fun p => .ok _
  | binary op left right position ihl ihr =>
    refine ihl.bind (fun v p hv => ?_) fun p => ?_
    · exact ihr.bind (fun w q hw => agree_binary op position hv hw) fun q =>
        Postfix.checksOnly_binary op p q position
    · exact (Postfix.checksOnly_fold right).bind fun q =>
        Postfix.checksOnly_binary op p q position

theorem agree_foldAll (es : List Expr) :
    Agree (fun _ _ => True) (reducer.foldAll es) (Postfix.reducer.foldAll es) := by
  induction es with
  | nil => exact .value trivial
  | cons e es ih =>
    exact (agree_fold e).bind (fun _ _ _ => ih) fun _ => Postfix.checksOnly_foldAll es

/-- The two readings compare as the two folds do, also where the text is no expression. -/
theorem agree_read (ts : List Token) :
    Agree SameKind (reducer.read ts) (Postfix.reducer.read ts) := by
  rcases Reducer.read_eq_fold_or_stopped ts with ⟨e, he⟩ | ⟨held, fault, hf⟩
  · rw [he, he]
    exact agree_fold e
  · rw [hf, hf]
    exact (agree_foldAll held).bind (fun _ _ _ => .refused trivial) fun _ => .error trivial

theorem agree_ofTokens (wanted : Option Kind) (ts : List Token) :
    Agree SameKind (ofTokens wanted ts) (Postfix.ofTokens wanted ts) := by
  refine (agree_read ts).bind (fun v p h => ?_) fun p => ?_
  · have hk : p.kind = v.kind := h
    rw [hk]
    cases he : Kind.expect wanted v.kind with
    | ok _ => exact .value h
    | error e => exact .refused (Postfix.checksOnly_expect _ _ e he)
  · exact ChecksOnly.bind (Postfix.checksOnly_expect wanted _) fun _ => .ok p

end Value

/-- A listing is refused for its tokens and kinds exactly where the computation is, unless the
computation stops at an operator before it gets there. -/
theorem static_refusals_agree (wanted : Option Kind) (ts : List Token) :
    (∀ fault, Value.ofTokens wanted ts = .error (.grammar fault) →
      Postfix.ofTokens wanted ts = .error (.grammar fault)) ∧
    (∀ fault, Postfix.ofTokens wanted ts = .error (.grammar fault) →
      Value.ofTokens wanted ts = .error (.grammar fault) ∨
        StopsAtOperator (Value.ofTokens wanted ts)) ∧
    (∀ v, Value.ofTokens wanted ts = .ok v →
      ∃ p, Postfix.ofTokens wanted ts = .ok p ∧ p.kind = v.kind) ∧
    (∀ asked found, Value.ofTokens wanted ts = .error (.wrongKind asked found) →
      Postfix.ofTokens wanted ts = .error (.wrongKind asked found)) ∧
    (∀ asked found, Postfix.ofTokens wanted ts = .error (.wrongKind asked found) →
      Value.ofTokens wanted ts = .error (.wrongKind asked found) ∨
        StopsAtOperator (Value.ofTokens wanted ts)) ∧
    (∀ p, Postfix.ofTokens wanted ts = .ok p →
      (∃ v, Value.ofTokens wanted ts = .ok v) ∨ StopsAtOperator (Value.ofTokens wanted ts)) := by
  have h := Value.agree_ofTokens wanted ts
  have static_error : ∀ e, e.IsStatic → Value.ofTokens wanted ts = .error e →
      Postfix.ofTokens wanted ts = .error e := by
    intro e he hx
    rcases h.of_left_error hx with ⟨-, hy⟩ | hs
    · exact hy
    · exact absurd he (hs.not_static hx)
  refine ⟨fun fault => static_error _ trivial, fun fault => h.of_right_error,
    fun v hx => h.of_left_ok hx, fun asked found => static_error _ trivial,
    fun asked found => h.of_right_error, fun p hy => ?_⟩
  rcases h.of_right_ok hy with ⟨v, hv, -⟩ | hs
  · exact .inl ⟨v, hv⟩
  · exact .inr hs

theorem static_refusals_agree_on_scaled_time :
    ∃ ts v p, Token.ofText "2*0:30" = .ok ts ∧
      Value.ofTokens none ts = .ok v ∧ Postfix.ofTokens none ts = .ok p ∧ p.kind = v.kind ∧
      Value.ofTokens (some .number) ts = .error (.wrongKind .number .time) ∧
      Postfix.ofTokens (some .number) ts = .error (.wrongKind .number .time) := by
  have hts : Token.ofText "2*0:30" = .ok [⟨.literal .integer, "2", 0⟩, ⟨.operator .mul, "*", 1⟩,
      ⟨.literal .time, "0:30", 2⟩] := rfl
  obtain ⟨v, hv⟩ : ∃ v, Value.ofTokens none [⟨.literal .integer, "2", 0⟩,
      ⟨.operator .mul, "*", 1⟩, ⟨.literal .time, "0:30", 2⟩] = .ok v := ⟨_, rfl⟩
  have hrefused : Value.ofTokens (some .number) [⟨.literal .integer, "2", 0⟩,
      ⟨.operator .mul, "*", 1⟩, ⟨.literal .time, "0:30", 2⟩] =
        .error (.wrongKind .number .time) := rfl
  obtain ⟨-, -, hvalue, -⟩ := static_refusals_agree none _
  obtain ⟨p, hp, hkind⟩ := hvalue v hv
  obtain ⟨-, -, -, hwrong, -⟩ := static_refusals_agree (some .number) _
  exact ⟨_, v, p, hts, hv, hp, hkind, hrefused, hwrong _ _ hrefused⟩

-- the computation stops at the quotient and never meets the product that the listing refuses
example :
    Postfix.ofText none "1/0+0:10*0:10" = .error (.grammar (.incompatible .mul .time .time 8)) ∧
    Value.ofText none "1/0+0:10*0:10" = .error (.run (.arithmetic .divisionByZero (some 1))) :=
  ⟨rfl, rfl⟩

end ClockCalc

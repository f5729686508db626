import ClockCalc.Expr.Evaluation
import ClockCalc.Proofs.Amounts
import ClockCalc.Proofs.Positions

/-! Arithmetic on integers is exact. An expression of integer and time literals that divides no
number by a number and has exponents of at most 32 bits has an amount over the unbounded integers.
As long as its numbers fit a word, the computed value is that amount: nothing is rounded and nothing
wraps. Time may leave the range or be divided by zero, and the first operation to do so, in
post-order, is the error. -/

namespace ClockCalc

namespace Amount

def signed : UnaryOp → Amount → Amount
  | .plus, x => x
  | .minus, number n => number (-n)
  | .minus, time s => time (-s)

/-- `none` where the kinds do not fit, and for quotients of two numbers and exponents outside 32
bits, which are not exact. A quotient by zero is zero here, but no result shows it: the division is
a fault. -/
def combine? : BinaryOp → Amount → Amount → Option Amount
  | .add, number a, number b => some (number (a + b))
  | .sub, number a, number b => some (number (a - b))
  | .mul, number a, number b => some (number (a * b))
  | .pow, number a, number b =>
    if 0 ≤ b ∧ b < 0x100000000 then some (number (a.pow b.toNat)) else none
  | .add, time a, time b => some (time (a + b))
  | .sub, time a, time b => some (time (a - b))
  | .mul, time a, number b => some (time (a * b))
  | .mul, number a, time b => some (time (a * b))
  | .div, time a, number b => some (time (a.tdiv b))
  | _, _, _ => none

theorem combine?_kind {op : BinaryOp} {a b x : Amount} (h : combine? op a b = some x) :
    Kind.combine? op a.kind b.kind = some x.kind := by
  unfold combine? at h
  split at h
  case h_4 =>
    obtain ⟨-, h⟩ := Option.ite_none_right_eq_some.1 h
    cases h
    rfl
  all_goals cases h <;> rfl

/-- Only time has a range to leave. -/
def overflow? : Amount → Option ArithmeticFault
  | number _ => none
  | time s => if Word.Holds s then none else some .outOfRange

end Amount

namespace Expr

def amount? : Expr → Option Amount
  | literal t => Amount.ofLiteral? t
  | signed op e _ => e.amount?.map (Amount.signed op)
  | binary op left right _ =>
    left.amount?.bind fun a => right.amount?.bind fun b => Amount.combine? op a b

/-- A literal fits a word, and so does a number that is computed; computed time need not. -/
def Fits : Expr → Prop
  | literal t => ∀ x ∈ (literal t).amount?, Word.Holds x.toInt
  | e => ∀ x ∈ e.amount?, x.kind = .number → Word.Holds x.toInt

instance (e : Expr) : Decidable e.Fits :=
  match e with
  | literal _ => inferInstanceAs (Decidable (∀ _ ∈ _, _))
  | signed .. | binary .. => inferInstanceAs (Decidable (∀ _ ∈ _, _))

/-- Why the operation at the root has no result though its operands have their amounts, and where
it stands. -/
def fault? : Expr → Option (ArithmeticFault × Nat)
  | literal _ => none
  | signed op e position =>
    ((signed op e position).amount?.bind Amount.overflow?).map (·, position)
  | binary op left right position =>
    if op = .div ∧ right.amount? = some (.number 0) then some (.divisionByZero, position)
    else ((binary op left right position).amount?.bind Amount.overflow?).map (·, position)

def firstFault? (e : Expr) : Option (ArithmeticFault × Nat) := e.reductions.findSome? fault?

theorem firstFault?_signed (op : UnaryOp) (e : Expr) (position : Nat) :
    (signed op e position).firstFault? =
      e.firstFault?.or (signed op e position).fault? := by
  rw [firstFault?, reductions, List.findSome?_append, List.findSome?_singleton]
  rfl

theorem firstFault?_binary (op : BinaryOp) (left right : Expr) (position : Nat) :
    (binary op left right position).firstFault? =
      left.firstFault?.or (right.firstFault?.or (binary op left right position).fault?) := by
  rw [firstFault?, reductions, List.findSome?_append, List.findSome?_append,
    List.findSome?_singleton, Option.or_assoc]
  rfl

end Expr

namespace Value

/-- The outcome of a computation whose amount and first fault are known. -/
inductive Answers (x : Amount) : Option (ArithmeticFault × Nat) → Except Error Value → Prop
  | value {v : Value} : v.amount? = some x → Answers x none (.ok v)
  | fault {cause position} :
      Answers x (some (cause, position)) (.error (.run (.arithmetic cause (some position))))

variable {x y : Amount} {v w : Value}

theorem Answers.bind {first second : Option (ArithmeticFault × Nat)} {r : Except Error Value}
    {f : Value → Except Error Value} (h : Answers x first r)
    (hf : ∀ v, v.amount? = some x → Answers y second (f v)) :
    Answers y (first.or second) (r >>= f) := by
  cases h with
  | value hv => exact hf _ hv
  | fault => exact .fault

/-- Time in the range is answered, and time outside it is the fault. -/
theorem answers_inRange (s : Int) (position : Nat) :
    Answers (.time s) ((Amount.time s).overflow?.map (·, position))
      ((inRange ((Word.ofInt? s).map Duration.mk)).mapError
        fun cause => .run (.arithmetic cause (some position))) := by
  by_cases h : Word.Holds s
  · obtain ⟨a, ha, rfl⟩ := Word.exists_of_holds h
    rw [ha, Amount.overflow?, if_pos h]
    exact .value rfl
  · rw [Word.ofInt?_of_not_holds h, Amount.overflow?, if_neg h]
    exact .fault

theorem answers_literal {t : Token} (hspells : Token.Spells t.kind t.lexeme.toList)
    (hx : (Expr.literal t).amount? = some x) (hfits : (Expr.literal t).Fits) :
    Answers x none (reducer.literal t) := by
  obtain ⟨form, hk, hform⟩ := Amount.ofForm?_of_ofLiteral? hx
  rw [hk] at hspells
  obtain ⟨v, hv, hva⟩ := exists_readForm? hspells hform (hfits x hx)
  simp only [reducer, ofLiteral, hk, hv]
  exact .value hva

theorem answers_signed {op : UnaryOp} {position : Nat} (hv : v.amount? = some x)
    (hfits : (x.signed op).kind = .number → Word.Holds (x.signed op).toInt) :
    Answers (x.signed op) ((x.signed op).overflow?.map (·, position))
      (reducer.signed op v position) := by
  cases x with
  | number n =>
    obtain ⟨a, rfl, rfl⟩ := eq_number_of_amount? hv
    cases op with
    | plus => exact .value rfl
    | minus =>
      obtain ⟨m, hm, hmv⟩ := Word.exists_of_holds (hfits rfl)
      have hneg : (Number.integer a).negate = .integer m := by
        rw [Number.negate, Word.neg?, show Word.ofInt? (-a.val) = some m from hm]
      simp only [reducer, applySign, hneg]
      exact .value (by rw [amount?, hmv]; rfl)
  | time s =>
    obtain ⟨a, rfl, rfl⟩ := eq_time_of_amount? hv
    cases op with
    | plus =>
      rw [Amount.signed, Amount.overflow?, if_pos a.holds_val]
      exact .value rfl
    | minus => exact answers_inRange (-a.val) position

/-- Numbers that fit are computed without a double. -/
theorem apply_integer {op : BinaryOp} {a b : Word}
    (hx : Amount.combine? op (.number a.val) (.number b.val) = some x)
    (hfits : x.kind = .number → Word.Holds x.toInt) :
    op ≠ .div ∧
      ∃ m : Word, Number.apply op (.integer a) (.integer b) = .ok (.integer m) ∧
        x = .number m.val := by
  have combine {exact : Word → Word → Option Word} {rounded : Binary64 → Binary64 → Binary64}
      {n : Int} (he : exact a b = Word.ofInt? n) (hn : Word.Holds n) :
      ∃ m : Word, Number.combine exact rounded (.integer a) (.integer b) = .ok (.integer m) ∧
        Amount.number n = .number m.val := by
    obtain ⟨m, hm, rfl⟩ := Word.exists_of_holds hn
    exact ⟨m, by simp only [Number.combine, he, hm], rfl⟩
  cases op with
  | add => cases hx; exact ⟨by decide, combine rfl (hfits rfl)⟩
  | sub => cases hx; exact ⟨by decide, combine rfl (hfits rfl)⟩
  | mul => cases hx; exact ⟨by decide, combine rfl (hfits rfl)⟩
  | div => cases hx
  | pow =>
    simp only [Amount.combine?] at hx
    split at hx
    · rename_i hb
      cases hx
      refine ⟨by decide, combine ?_ (hfits rfl)⟩
      rw [Number.exactPow?, Number.exponent?, if_pos hb, Option.bind_some, Word.pow?_eq_ofInt?]
    · cases hx

theorem mapError_located (r : Except ArithmeticFault Value) (position : Nat) :
    ((r.mapError Fault.arithmetic).mapError
        fun fault => Error.run (fault.located (some position))) =
      r.mapError fun cause => .run (.arithmetic cause (some position)) := by
  cases r <;> rfl

theorem answers_time {op : BinaryOp} {s : Int} {position : Nat}
    (h : apply op v w = (inRange ((Word.ofInt? s).map Duration.mk)).mapError .arithmetic) :
    Answers (.time s) ((Amount.time s).overflow?.map (·, position))
      ((apply op v w).mapError fun fault => .run (fault.located (some position))) := by
  rw [h, mapError_located]
  exact answers_inRange s position

theorem answers_divide (a b : Word) (position : Nat) :
    Answers (.time (a.val.tdiv b.val))
      (if b.val = 0 then some (.divisionByZero, position)
        else (Amount.time (a.val.tdiv b.val)).overflow?.map (·, position))
      ((apply .div (.time ⟨a⟩) (.number (.integer b))).mapError
        fun fault => .run (fault.located (some position))) := by
  have happly : apply .div (.time ⟨a⟩) (.number (.integer b)) =
      ((Duration.divide ⟨a⟩ (.integer b)).map time).mapError .arithmetic := rfl
  by_cases hb : b.val = 0
  · rw [happly, if_pos hb, Duration.divide, if_pos (by simp [Number.isZero, hb])]
    exact .fault
  · rw [if_neg hb]
    refine answers_time ?_
    rw [happly, Duration.divide, if_neg (by simp [Number.isZero, hb])]
    simp only [Word.tdiv?, if_neg hb]
    cases Word.ofInt? (a.val.tdiv b.val) <;> rfl

/-- What the operation on two values with their amounts answers. -/
theorem answers_apply {op : BinaryOp} {a b : Amount} {position : Nat}
    (hv : v.amount? = some a) (hw : w.amount? = some b) (hx : Amount.combine? op a b = some x)
    (hfits : x.kind = .number → Word.Holds x.toInt) :
    Answers x
      (if op = .div ∧ b = .number 0 then some (.divisionByZero, position)
        else x.overflow?.map (·, position))
      ((apply op v w).mapError fun fault => .run (fault.located (some position))) := by
  cases a with
  | number n =>
    obtain ⟨a, rfl, rfl⟩ := eq_number_of_amount? hv
    cases b with
    | number m =>
      obtain ⟨b, rfl, rfl⟩ := eq_number_of_amount? hw
      obtain ⟨hop, m, hm, rfl⟩ := apply_integer hx hfits
      rw [if_neg fun h => hop h.1]
      simp only [apply, hm]
      exact .value rfl
    | time t =>
      obtain ⟨b, rfl, rfl⟩ := eq_time_of_amount? hw
      cases op with
      | mul =>
        cases hx
        rw [if_neg (by simp), Int.mul_comm a.val b.val]
        exact answers_time rfl
      | add | sub | div | pow => cases hx
  | time s =>
    obtain ⟨a, rfl, rfl⟩ := eq_time_of_amount? hv
    cases b with
    | number m =>
      obtain ⟨b, rfl, rfl⟩ := eq_number_of_amount? hw
      cases op with
      | mul =>
        cases hx
        rw [if_neg (by simp)]
        exact answers_time rfl
      | div =>
        cases hx
        simpa using answers_divide a b position
      | add | sub | pow => cases hx
    | time t =>
      obtain ⟨b, rfl, rfl⟩ := eq_time_of_amount? hw
      cases op with
      | add =>
        cases hx
        rw [if_neg (by simp)]
        exact answers_time rfl
      | sub =>
        cases hx
        rw [if_neg (by simp)]
        exact answers_time rfl
      | mul | div | pow => cases hx

theorem answers_binary {op : BinaryOp} {a b : Amount} {position : Nat}
    (hv : v.amount? = some a) (hw : w.amount? = some b) (hx : Amount.combine? op a b = some x)
    (hfits : x.kind = .number → Word.Holds x.toInt) :
    Answers x
      (if op = .div ∧ b = .number 0 then some (.divisionByZero, position)
        else x.overflow?.map (·, position))
      (reducer.binary op v w position) := by
  have hkind : Kind.combine? op v.kind w.kind = some x.kind := by
    rw [kind_of_amount? hv, kind_of_amount? hw]
    exact Amount.combine?_kind hx
  simp only [reducer, Kind.check, hkind, mapError_ok, ok_bind]
  exact answers_apply hv hw hx hfits

/-- By induction on the tree: every operation meets the amounts of its operands. -/
theorem answers_fold {e : Expr}
    (hspells : ∀ t, .literal t ∈ e.reductions → Token.Spells t.kind t.lexeme.toList)
    (hfits : ∀ s ∈ e.reductions, s.Fits) (hx : e.amount? = some x) :
    Answers x e.firstFault? (reducer.fold e) := by
  induction e generalizing x with
  | literal t =>
    exact answers_literal (hspells t (Expr.self_mem_reductions _)) hx
      (hfits _ (Expr.self_mem_reductions _))
  | signed op e position ih =>
    obtain ⟨y, hy, rfl⟩ := Option.map_eq_some_iff.1 hx
    have hbelow : ∀ s ∈ e.reductions, s ∈ (Expr.signed op e position).reductions := fun s hs =>
      List.mem_append_left _ hs
    have hoperand := ih (fun t ht => hspells t (hbelow _ ht)) (fun s hs => hfits s (hbelow s hs)) hy
    rw [Expr.firstFault?_signed, Expr.fault?, hx, Option.bind_some]
    exact hoperand.bind fun v hv =>
      answers_signed hv (hfits _ (Expr.self_mem_reductions _) _ hx)
  | binary op left right position ihl ihr =>
    obtain ⟨a, ha, hrest⟩ := Option.bind_eq_some_iff.1 hx
    obtain ⟨b, hb, hcombine⟩ := Option.bind_eq_some_iff.1 hrest
    have hl : ∀ s ∈ left.reductions, s ∈ (Expr.binary op left right position).reductions :=
      fun s hs => List.mem_append_left _ (List.mem_append_left _ hs)
    have hr : ∀ s ∈ right.reductions, s ∈ (Expr.binary op left right position).reductions :=
      fun s hs => List.mem_append_left _ (List.mem_append_right _ hs)
    have hleft := ihl (fun t ht => hspells t (hl _ ht)) (fun s hs => hfits s (hl s hs)) ha
    have hright := ihr (fun t ht => hspells t (hr _ ht)) (fun s hs => hfits s (hr s hs)) hb
    simp only [Expr.firstFault?_binary, Expr.fault?, hx, hb, Option.bind_some, Option.some.injEq]
    exact hleft.bind fun v hv => hright.bind fun w hw =>
      answers_binary hv hw hcombine (hfits _ (Expr.self_mem_reductions _) _ hx)

/-- A text whose expression has an amount is computed exactly, up to the first operation on time
that leaves the range or divides by zero. -/
theorem exact_on_integers {text : String} {ts : List Token} {e : Expr}
    (hts : Token.ofText text = .ok ts) (he : Expr.reducer.read ts = .ok e)
    (hfits : ∀ s ∈ e.reductions, s.Fits) (hx : e.amount? = some x) :
    Answers x e.firstFault? (ofTokens none ts) := by
  obtain ⟨p, hp⟩ := Expr.exists_derivation he
  have hspells : ∀ t, .literal t ∈ e.reductions → Token.Spells t.kind t.lexeme.toList := by
    intro t ht
    obtain ⟨hmem, -⟩ := hp.tokens ▸ p.rootedIn_of_mem_reductions _ (hp.tree.symm ▸ ht)
    exact Token.spells_of_ofText hts hmem
  have hfold := answers_fold hspells hfits hx
  have hread : ofTokens none ts = reducer.fold e := by
    simp only [ofTokens, reducer.read_eq_fold he, Kind.expect, ok_bind, pure_eq_ok, bind_ok_self]
  rwa [hread]

/-- The quotient drops its fraction towards zero, and `2 ^ 63` seconds are one too many. -/
theorem exact_on_quotient_and_limit :
    Token.ofText "0:07/-2" = .ok [⟨.literal .time, "0:07", 0⟩, ⟨.operator .div, "/", 4⟩,
      ⟨.operator .sub, "-", 5⟩, ⟨.literal .integer, "2", 6⟩] ∧
    Answers (.time (-3)) none (ofTokens none [⟨.literal .time, "0:07", 0⟩,
      ⟨.operator .div, "/", 4⟩, ⟨.operator .sub, "-", 5⟩, ⟨.literal .integer, "2", 6⟩]) ∧
    Token.ofText "0:02*4611686018427387904" = .ok [⟨.literal .time, "0:02", 0⟩,
      ⟨.operator .mul, "*", 4⟩, ⟨.literal .integer, "4611686018427387904", 5⟩] ∧
    Answers (.time 0x8000000000000000) (some (.outOfRange, 4)) (ofTokens none
      [⟨.literal .time, "0:02", 0⟩, ⟨.operator .mul, "*", 4⟩,
        ⟨.literal .integer, "4611686018427387904", 5⟩]) := by
  have hquotient : Token.ofText "0:07/-2" = .ok [⟨.literal .time, "0:07", 0⟩,
      ⟨.operator .div, "/", 4⟩, ⟨.operator .sub, "-", 5⟩, ⟨.literal .integer, "2", 6⟩] := by rfl
  have hlimit : Token.ofText "0:02*4611686018427387904" = .ok [⟨.literal .time, "0:02", 0⟩,
      ⟨.operator .mul, "*", 4⟩, ⟨.literal .integer, "4611686018427387904", 5⟩] := by rfl
  exact ⟨hquotient, exact_on_integers hquotient (by rfl) (by decide) (by rfl), hlimit,
    exact_on_integers hlimit (by rfl) (by decide) (by rfl)⟩

-- the least word is reached without a double
example : answer none "(0-2)^63" = .ok "-9223372036854775808" := by rfl

end Value

end ClockCalc

import ClockCalc.Expr.Evaluation
import ClockCalc.Proofs.Ranks
import ClockCalc.Proofs.Tree

/-! No computation comes to an infinite number or to NaN. Literals and the results of operations
are checked for it; a changed sign needs no check, for it keeps a double finite. A reader that
refuses all values that are not finite therefore reads as before. -/

namespace ClockCalc

namespace Reducer

variable {α : Type}

/-- Refuses every value that it does not want to keep, wherever it arises. -/
def guard (R : Reducer α) (keep : α → Bool) (refusal : Error) : Reducer α :=
  let checked (v : α) : Except Error α := if keep v then .ok v else .error refusal
  { literal := fun t => R.literal t >>= checked
    signed := fun op v position => R.signed op v position >>= checked
    binary := fun op v w position => R.binary op v w position >>= checked }

variable {R S : Reducer α}

theorem foldAll_congr (h : ∀ e, R.fold e = S.fold e) (es : List Expr) :
    R.foldAll es = S.foldAll es := by
  induction es with
  | nil => rfl
  | cons e es ih => simp only [foldAll, h e, ih]

/-- Reading asks a reducer about nothing but operands and operators of one tree, so reducers that
fold alike read alike. -/
theorem read_congr (h : ∀ e, R.fold e = S.fold e) (ts : List Token) : R.read ts = S.read ts := by
  rcases read_eq_fold_or_stopped ts with ⟨e, he⟩ | ⟨held, fault, hf⟩
  · rw [he, he, h]
  · rw [hf, hf, foldAll_congr h]

theorem fold_guard {keep : α → Bool} (hkeep : ∀ e v, R.fold e = .ok v → keep v = true)
    (refusal : Error) (e : Expr) : (R.guard keep refusal).fold e = R.fold e := by
  have checked {x : Except Error α} (hx : ∀ v, x = .ok v → keep v = true) :
      (x >>= fun v => if keep v then .ok v else .error refusal) = x := by
    cases x with
    | error e => rfl
    | ok v => exact if_pos (hx v rfl)
  induction e with
  | literal t => exact checked (hkeep (.literal t))
  | signed op e position ih =>
    simp only [fold, ih]
    refine bind_congr_ok fun v hv => checked fun w hw => ?_
    exact hkeep (.signed op e position) w (by simp [fold, hv, hw])
  | binary op left right position ihl ihr =>
    simp only [fold, ihl, ihr]
    refine bind_congr_ok fun v hv => bind_congr_ok fun w hw => checked fun u hu => ?_
    exact hkeep (.binary op left right position) u (by simp [fold, hv, hw, hu])

end Reducer

namespace Binary64

theorem isFinite_neg {x : Binary64} (h : x.isFinite = true) : (-x).isFinite = true := by
  cases x with
  | finite s rank => rfl
  | nan s | infinite s => cases h

theorem isFinite_zero_sub {x : Binary64} (h : x.isFinite = true) :
    (zero false - x).isFinite = true := by
  cases x with
  | finite s rank =>
    rw [show zero false - finite s rank = zero false + finite (!s) rank from rfl, zero,
      finite_add_comm]
    have hsum := finite_add_zero (!s) false rank
    rw [zero] at hsum
    rw [hsum]
    rfl
  | nan s | infinite s => cases h

end Binary64

namespace Number

def isFinite : Number → Bool
  | integer _ => true
  | real x => x.isFinite

variable {n a b : Number}

theorem isFinite_of_ofFinite {x : Binary64} (h : ofFinite x = .ok n) : n.isFinite = true := by
  unfold ofFinite at h
  split at h
  · cases h
    assumption
  · cases h

theorem isFinite_of_combine {exact : Word → Word → Option Word}
    {rounded : Binary64 → Binary64 → Binary64} (h : combine exact rounded a b = .ok n) :
    n.isFinite = true := by
  unfold combine at h
  split at h
  · split at h
    · cases h
      rfl
    · exact isFinite_of_ofFinite h
  · exact isFinite_of_ofFinite h

theorem isFinite_of_apply {op : BinaryOp} (h : apply op a b = .ok n) : n.isFinite = true := by
  cases op with
  | add | sub | mul | pow => exact isFinite_of_combine h
  | div =>
    simp only [apply] at h
    split at h
    · cases h
    · exact isFinite_of_ofFinite h

theorem isFinite_negate (h : n.isFinite = true) : n.negate.isFinite = true := by
  cases n with
  | integer a =>
    simp only [negate]
    split
    · rfl
    · exact Binary64.isFinite_neg (Binary64.isFinite_ofInt a)
  | real x => exact Binary64.isFinite_zero_sub h

end Number

namespace Value

def isFinite : Value → Bool
  | number n => n.isFinite
  | time _ => true

variable {v w u : Value}

theorem isFinite_of_readForm? {form : LiteralForm} {cs : List Char}
    (h : readForm? form cs = some v) : v.isFinite = true := by
  cases form with
  | integer | time =>
    obtain ⟨_, -, rfl⟩ := Option.map_eq_some_iff.1 h
    rfl
  | decimal =>
    obtain ⟨x, hx, rfl⟩ := Option.map_eq_some_iff.1 h
    exact (Option.filter_eq_some_iff.1 hx).2

theorem isFinite_of_ofLiteral {t : Token} (h : ofLiteral t = .ok v) : v.isFinite = true := by
  unfold ofLiteral at h
  split at h
  · split at h
    · rename_i hv
      cases h
      exact isFinite_of_readForm? hv
    · cases h
  · cases h

theorem isFinite_of_inRange {d : Option Duration} (h : inRange d = .ok v) :
    v.isFinite = true := by
  cases d with
  | none => cases h
  | some d => cases h; rfl

theorem isFinite_of_applySign {op : UnaryOp} (h : v.applySign op = .ok w)
    (hv : v.isFinite = true) : w.isFinite = true := by
  cases op with
  | plus => cases h; exact hv
  | minus =>
    cases v with
    | number n => cases h; exact Number.isFinite_negate hv
    | time d => exact isFinite_of_inRange h

theorem isFinite_of_applyTime? {op : BinaryOp} {x : Except ArithmeticFault Value}
    (h : applyTime? op v w = some x) (hu : x = .ok u) : u.isFinite = true := by
  unfold applyTime? at h
  split at h <;> cases h
  case h_5 =>
    obtain ⟨d, -, rfl⟩ := map_eq_ok_iff.1 hu
    rfl
  all_goals exact isFinite_of_inRange hu

theorem isFinite_of_apply {op : BinaryOp} (h : apply op v w = .ok u) : u.isFinite = true := by
  unfold apply at h
  split at h
  · obtain ⟨n, hn, rfl⟩ := map_eq_ok_iff.1 (mapError_eq_ok_iff.1 h)
    exact Number.isFinite_of_apply hn
  · split at h
    · rename_i result hr
      exact isFinite_of_applyTime? hr (mapError_eq_ok_iff.1 h)
    · cases h

/-- By induction on the tree; only a sign depends on its operand for it. -/
theorem isFinite_of_fold {e : Expr} (h : reducer.fold e = .ok v) : v.isFinite = true := by
  induction e generalizing v with
  | literal t => exact isFinite_of_ofLiteral (mapError_eq_ok_iff.1 h)
  | signed op e position ih =>
    obtain ⟨w, hw, hv⟩ := bind_eq_ok_iff.1 h
    exact isFinite_of_applySign (mapError_eq_ok_iff.1 hv) (ih hw)
  | binary op left right position =>
    obtain ⟨a, -, h⟩ := bind_eq_ok_iff.1 h
    obtain ⟨b, -, h⟩ := bind_eq_ok_iff.1 h
    obtain ⟨_, -, h⟩ := bind_eq_ok_iff.1 h
    exact isFinite_of_apply (mapError_eq_ok_iff.1 h)

theorem read_guard (refusal : Error) (ts : List Token) :
    (reducer.guard isFinite refusal).read ts = reducer.read ts :=
  Reducer.read_congr (Reducer.fold_guard (fun _ _ => isFinite_of_fold) refusal) ts

theorem isFinite_of_ofTokens {wanted : Option Kind} {ts : List Token}
    (h : ofTokens wanted ts = .ok v) : v.isFinite = true := by
  obtain ⟨w, hw, h⟩ := bind_eq_ok_iff.1 h
  obtain ⟨-, -, h⟩ := bind_eq_ok_iff.1 h
  cases h
  obtain ⟨e, -, hfold⟩ := reducer.exists_tree hw
  exact isFinite_of_fold hfold

end Value

end ClockCalc

/-! Integers of the signed 64-bit range. The operations are those of `Int`, and each
answers `none` where the exact result leaves the range; nothing wraps. -/

namespace ClockCalc

/-- An integer from `-2 ^ 63` to `2 ^ 63 - 1`. The hexadecimal numeral is `2 ^ 63`. -/
structure Word where
  val : Int
  lower : -0x8000000000000000 ≤ val
  upper : val < 0x8000000000000000
  deriving DecidableEq

namespace Word

def ofInt? (n : Int) : Option Word :=
  if h : -0x8000000000000000 ≤ n ∧ n < 0x8000000000000000 then some ⟨n, h.1, h.2⟩ else none

def zero : Word := ⟨0, by decide, by decide⟩

/-- The only word whose negative does not fit. -/
def least : Word := ⟨-0x8000000000000000, by decide, by decide⟩

def greatest : Word := ⟨0x7fffffffffffffff, by decide, by decide⟩

instance : Inhabited Word := ⟨zero⟩

/-- The word nearest to an integer. -/
def clamp (n : Int) : Word := (ofInt? n).getD (if n < 0 then least else greatest)

def add? (a b : Word) : Option Word := ofInt? (a.val + b.val)

def sub? (a b : Word) : Option Word := ofInt? (a.val - b.val)

def mul? (a b : Word) : Option Word := ofInt? (a.val * b.val)

def neg? (a : Word) : Option Word := ofInt? (-a.val)

/-- The quotient with its fraction dropped, so `-7` by `2` is `-3`. -/
def tdiv? (a b : Word) : Option Word :=
  if b.val = 0 then none else ofInt? (a.val.tdiv b.val)

/-- The exact power. A base of two or more leaves the range within 64 factors, and the powers
of the other bases repeat, so no long product is ever formed. -/
def pow? (base : Word) (n : Nat) : Option Word :=
  if base.val.natAbs ≤ 1 then ofInt? (base.val.pow (if n = 0 then 0 else 2 - n % 2))
  else if n < 64 then ofInt? (base.val.pow n)
  else none

theorem ext_val {a b : Word} (h : a.val = b.val) : a = b := by
  cases a; cases b; cases h; rfl

theorem ofInt?_val (a : Word) : ofInt? a.val = some a := by
  rw [ofInt?, dif_pos ⟨a.lower, a.upper⟩]

theorem ofInt?_eq_some_iff {n : Int} {a : Word} : ofInt? n = some a ↔ n = a.val := by
  constructor
  · intro h
    unfold ofInt? at h
    split at h
    · cases h; rfl
    · cases h
  · rintro rfl
    exact ofInt?_val a

theorem ofInt?_eq_none_iff {n : Int} :
    ofInt? n = none ↔ n < -0x8000000000000000 ∨ 0x8000000000000000 ≤ n := by
  unfold ofInt?
  split <;> simp <;> omega

end Word

end ClockCalc

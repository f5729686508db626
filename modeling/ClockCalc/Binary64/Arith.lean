import ClockCalc.Binary64.Rounding

/-! Arithmetic on doubles: the exact result of each operation, rounded once. -/

namespace ClockCalc.Binary64

def neg : Binary64 → Binary64
  | .nan s => .nan s
  | .infinite s => .infinite !s
  | .finite s r => .finite (!s) r

/-- A sum of zero is negative only if both terms are. -/
def add : Binary64 → Binary64 → Binary64
  | .nan _, _ | _, .nan _ => quietNan
  | .infinite s, .infinite t => if s = t then .infinite s else quietNan
  | .infinite s, .finite .. => .infinite s
  | .finite .., .infinite t => .infinite t
  | .finite s a, .finite t b =>
    let left : Int := if s then -(unitsOfRank a : Int) else unitsOfRank a
    let right : Int := if t then -(unitsOfRank b : Int) else unitsOfRank b
    let sum := left + right
    ofUnits (if sum = 0 then s && t else sum < 0) sum.natAbs 1

def sub (a b : Binary64) : Binary64 := add a (neg b)

def mul : Binary64 → Binary64 → Binary64
  | .nan _, _ | _, .nan _ => quietNan
  | .infinite s, .infinite t => .infinite (s ^^ t)
  | .infinite s, .finite t b => if b.val = 0 then quietNan else .infinite (s ^^ t)
  | .finite s a, .infinite t => if a.val = 0 then quietNan else .infinite (s ^^ t)
  | .finite s a, .finite t b => ofUnits (s ^^ t) (unitsOfRank a * unitsOfRank b) one

def div : Binary64 → Binary64 → Binary64
  | .nan _, _ | _, .nan _ => quietNan
  | .infinite _, .infinite _ => quietNan
  | .infinite s, .finite t _ => .infinite (s ^^ t)
  | .finite s _, .infinite t => zero (s ^^ t)
  | .finite s a, .finite t b =>
    if b.val = 0 then
      if a.val = 0 then quietNan else .infinite (s ^^ t)
    else ofUnits (s ^^ t) (unitsOfRank a * one) (unitsOfRank b)

def isSignaling (x : Binary64) : Bool := x = .nan true

/-- The one operation that is not correctly rounded: powers are those of the machine. A quiet NaN
to the power of zero is one, and so is one to the power of it; a signaling NaN has no powers. -/
def pow (a b : Binary64) : Binary64 :=
  if a.isSignaling || b.isSignaling then quietNan
  else ofBits ((Float.ofBits a.toBits).pow (Float.ofBits b.toBits)).toBits

instance : Neg Binary64 := ⟨neg⟩
instance : Add Binary64 := ⟨add⟩
instance : Sub Binary64 := ⟨sub⟩
instance : Mul Binary64 := ⟨mul⟩
instance : Div Binary64 := ⟨div⟩

end ClockCalc.Binary64

/-! Double-precision numbers with their exact values. A finite double is a sign and a rank, its
place among the nonnegative finite doubles in increasing order, which is also what the low 63
bits of its encoding hold. Every finite double is a whole multiple of `2 ^ -1074`, called a unit
here, so exact arithmetic on doubles is arithmetic on `Nat`. -/

namespace ClockCalc

/-- The ranks between one power of two and the next, `2 ^ 52` of them. -/
abbrev ranksPerPower : Nat := 0x10000000000000

/-- Ranks below this are finite; this one stands for infinity. -/
abbrev infiniteRank : Nat := 0x7ff0000000000000

/-- Encodings of NaN below this rank are signaling. -/
abbrev quietRank : Nat := 0x7ff8000000000000

/-- A NaN shows whether it is signaling. Its payload and sign never show. -/
inductive Binary64 where
  | nan (signaling : Bool)
  | infinite (negative : Bool)
  | finite (negative : Bool) (rank : Fin infiniteRank)
  deriving DecidableEq

namespace Binary64

/-- The number one in units. -/
abbrev one : Nat := 1 <<< 1074

/-- Below rank `2 ^ 52` neighbours are one unit apart, and the distance doubles with every
further `2 ^ 52` ranks but the first. -/
def unitsOfRank (rank : Nat) : Nat :=
  if rank < ranksPerPower then rank
  else (ranksPerPower + rank % ranksPerPower) <<< (rank / ranksPerPower - 1)

def zero (negative : Bool) : Binary64 := .finite negative ⟨0, by decide⟩

instance : Inhabited Binary64 := ⟨zero false⟩

/-- What operations without a result answer. -/
def quietNan : Binary64 := .nan false

def isFinite : Binary64 → Bool
  | .finite .. => true
  | _ => false

/-- Both zeros count. -/
def isZero : Binary64 → Bool
  | .finite _ rank => rank.val == 0
  | _ => false

/-- A value without a fraction. -/
def isWhole : Binary64 → Bool
  | .finite _ rank => unitsOfRank rank % one == 0
  | _ => false

/-- The exact value in units. -/
def units? : Binary64 → Option Int
  | .finite negative rank =>
    some (if negative then -(unitsOfRank rank : Int) else (unitsOfRank rank : Int))
  | _ => none

/-- The value with its fraction dropped. -/
def truncate? (x : Binary64) : Option Int := x.units?.map (·.tdiv (one : Int))

/-- How two doubles compare by value: the zeros are equal, and NaN compares with nothing. -/
def compare? : Binary64 → Binary64 → Option Ordering
  | .nan _, _ | _, .nan _ => none
  | .infinite s, .infinite t => some (compare t s)
  | .infinite s, .finite .. => some (if s then .lt else .gt)
  | .finite .., .infinite t => some (if t then .gt else .lt)
  | .finite s a, .finite t b =>
    let left : Int := if s then -(unitsOfRank a : Int) else unitsOfRank a
    let right : Int := if t then -(unitsOfRank b : Int) else unitsOfRank b
    some (compare left right)

instance : LT Binary64 := ⟨fun a b => a.compare? b = some .lt⟩

instance : LE Binary64 := ⟨fun a b => a.compare? b = some .lt ∨ a.compare? b = some .eq⟩

instance (a b : Binary64) : Decidable (a < b) := inferInstanceAs (Decidable (_ = _))

instance (a b : Binary64) : Decidable (a ≤ b) := inferInstanceAs (Decidable (_ ∨ _))

def ofRank (negative : Bool) (rank : Nat) : Binary64 :=
  if h : rank < infiniteRank then .finite negative ⟨rank, h⟩ else .infinite negative

def ofBits (bits : UInt64) : Binary64 :=
  let negative := decide (0x8000000000000000 ≤ bits.toNat)
  let rank := bits.toNat % 0x8000000000000000
  if infiniteRank < rank then .nan (rank < quietRank) else ofRank negative rank

def signBit (negative : Bool) : Nat := if negative then 0x8000000000000000 else 0

def toBits : Binary64 → UInt64
  | .nan signaling => UInt64.ofNat (if signaling then infiniteRank + 1 else quietRank)
  | .infinite negative => UInt64.ofNat (infiniteRank + signBit negative)
  | .finite negative rank => UInt64.ofNat (rank.val + signBit negative)

end Binary64

end ClockCalc

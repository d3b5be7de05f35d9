import BufferFusion.Lane

/-!
# Decimal text of lanes

A lane is written with the fewest digits that read back as the same lane; of two such numbers the
nearer one is taken, and of two that are equally near the one farther from zero. The digits are
found in exact arithmetic on the decimal grids around the lane, the coarsest grid first.
-/
namespace BufferFusion

namespace Decimal

/-- `digits * 10 ^ exponent`. -/
structure Number where
  digits : Nat
  exponent : Int
  deriving DecidableEq, Repr, Inhabited

/-- The positive numbers that read back as one lane, in units of a quarter of the lane's last
place: from `lower` to `upper`, both included or both not, with the lane itself at `value`. -/
structure Range where
  lower : Nat
  value : Nat
  upper : Nat
  closed : Bool
  /-- The exponent of two of the unit. -/
  exponent : Int

/-- Below a power of two the neighbour is only half as far away. An even mantissa wins ties, so
the ends of its range belong to it. -/
def rangeOf (x : Float) : Range :=
  let m := Lane.mantissa x
  let narrow := Lane.fraction x = 0 && 1 < Lane.exponentField x
  { lower := 4 * m - (if narrow then 1 else 2)
    value := 4 * m
    upper := 4 * m + 2
    closed := m % 2 == 0
    exponent := (Lane.scale x : Int) - 1077 }

/-- A unit of two to the power `q` over ten to the power `k`, as a fraction. -/
def unitOver (q k : Int) : Nat × Nat :=
  (Nat.pow 10 (-k).toNat <<< q.toNat, Nat.pow 10 k.toNat <<< (-q).toNat)

/-- The point of the grid of tens to the power `k` that lies in the range and next to the lane; a
lane halfway between two points goes to the greater. -/
def onGrid? (r : Range) (k : Int) : Option Nat :=
  let (num, den) := unitOver r.exponent k
  let inside := fun d : Nat =>
    if r.closed then r.lower * num ≤ d * den && d * den ≤ r.upper * num
    else r.lower * num < d * den && d * den < r.upper * num
  let below := r.value * num / den
  let above := below + 1
  if inside below then
    if inside above && above * den - r.value * num ≤ r.value * num - below * den then some above
    else some below
  else if inside above then some above
  else none

/-- Tries grid after grid, ten times finer each time. -/
def search (r : Range) : Nat → Int → Number
  | 0, k => ⟨r.value, k⟩
  | fuel + 1, k =>
    match onGrid? r k with
    | some d => ⟨d, k⟩
    | none => search r fuel (k - 1)

/-- The shortest number for the magnitude of a lane that is finite and not zero. The first grid is
coarser than the lane is large, and seventeen digits always suffice. -/
def shortest (x : Float) : Number :=
  let r := rangeOf x
  let size : Int := r.value.log2 + r.exponent
  search r 24 (Int.fdiv (size * 30103) 100000 + 2)

/-- How numbers are written. -/
structure Style where
  /-- Whole numbers end in `.0`. -/
  pointZero : Bool
  /-- Numbers of a smaller or a larger power of ten than these are written with an exponent. -/
  positional : Option (Int × Int)

def zeros (n : Nat) : String := String.ofList (List.replicate n '0')

/-- All digits in place. -/
def plainText (style : Style) (n : Number) : String :=
  let ds := toString n.digits
  if 0 ≤ n.exponent then ds ++ zeros n.exponent.toNat ++ (if style.pointZero then ".0" else "")
  else
    let places := (-n.exponent).toNat
    if places < ds.length then
      (ds.take (ds.length - places)).toString ++ "." ++ (ds.drop (ds.length - places)).toString
    else "0." ++ zeros (places - ds.length) ++ ds

/-- One digit before the point and an exponent. -/
def scientificText (n : Number) : String :=
  let ds := toString n.digits
  let power := n.exponent + (ds.length - 1 : Nat)
  (ds.take 1).toString ++ (if ds.length = 1 then "" else "." ++ (ds.drop 1).toString) ++ "e" ++
    toString power

def numberText (style : Style) (n : Number) : String :=
  let power := n.exponent + ((toString n.digits).length - 1 : Nat)
  match style.positional with
  | some (least, greatest) =>
    if power < least || greatest < power then scientificText n else plainText style n
  | none => plainText style n

def text (style : Style) (x : Float) : String :=
  if Lane.isNaN x then "NaN"
  else
    (if Lane.signBit x = 0 then "" else "-") ++
      (if Lane.isInfinite x then "inf"
      else if Lane.mantissa x = 0 then (if style.pointZero then "0.0" else "0")
      else numberText style (shortest x))

/-- Values in reports: whole numbers show their point, and an exponent is written from ten to the
sixteenth on and below a ten-thousandth. -/
def value : Style := ⟨true, some (-4, 15)⟩

/-- Measures in running text: no exponent, and no point after a whole number. -/
def measure : Style := ⟨false, none⟩

end Decimal
end BufferFusion

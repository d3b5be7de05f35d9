/-!
# Lanes

The host keeps every tensor element in one 64-bit floating-point lane. The conversions here work
on the bits of a lane in `Nat`: dropping the fraction, rounding to single precision (a tie goes to
the even neighbour) and cutting to an integer range.
-/
namespace BufferFusion.Lane

def bits (x : Float) : Nat := x.toBits.toNat

def ofBits (n : Nat) : Float := Float.ofBits (UInt64.ofNat n)

def signBit (x : Float) : Nat := bits x >>> 63

def exponentField (x : Float) : Nat := (bits x >>> 52) % 2048

def fraction (x : Float) : Nat := bits x % 1 <<< 52

def isNaN (x : Float) : Bool := exponentField x == 2047 && fraction x != 0

def isInfinite (x : Float) : Bool := exponentField x == 2047 && fraction x == 0

/-- The exponent field as it counts: a subnormal lane has the exponent of the least normal one. -/
def scale (x : Float) : Nat := max (exponentField x) 1

/-- A finite lane has the magnitude `mantissa x * 2 ^ (scale x - 1075)`. -/
def mantissa (x : Float) : Nat :=
  if exponentField x = 0 then fraction x else fraction x + 1 <<< 52

/-- The integer part, toward zero; the sign stays, also on a zero. -/
def truncate (x : Float) : Float :=
  let e := exponentField x
  if e < 1023 then ofBits (signBit x <<< 63)
  else if 1075 ≤ e then x
  else
    let dropped := 1075 - e
    ofBits (bits x >>> dropped <<< dropped)

/-- The integer part cut to `lo..hi`; zero where there is no number. An infinite lane has a
magnitude of `2 ^ 1024` here, beyond every range that is asked for. -/
def toIntIn (lo hi : Int) (x : Float) : Int :=
  if isNaN x then 0
  else
    let whole : Nat :=
      if 1075 ≤ scale x then mantissa x <<< (scale x - 1075)
      else mantissa x >>> (1075 - scale x)
    let signed : Int := if signBit x = 0 then whole else -whole
    max lo (min hi signed)

def negativeZero : Float := ofBits (1 <<< 63)

/-- Integers up to this magnitude have a lane of their own. -/
def exactLimit : Nat := 1 <<< 53

/-- `n / 2 ^ k` to the nearest integer, a tie to the even one. -/
def roundShift (n k : Nat) : Nat :=
  let q := n >>> k
  let r := n % 1 <<< k
  if 2 * r < 1 <<< k then q
  else if 1 <<< k < 2 * r then q + 1
  else q + q % 2

/-- The bits of the lane nearest to a natural number of machine size. Exponent and fraction are one
number, so a carry out of the fraction moves the exponent. -/
def natBits (n : Nat) : Nat :=
  if n = 0 then 0
  else
    let top := n.log2
    (top + 1022) <<< 52 + (if top ≤ 52 then n <<< (52 - top) else roundShift n (top - 52))

def ofInt (n : Int) : Float := ofBits ((if n < 0 then 1 <<< 63 else 0) + natBits n.natAbs)

/-- The 32 bits of the nearest single-precision number; past the last finite one lies infinity. -/
def toSingleBits (x : Float) : Nat :=
  let sign := signBit x <<< 31
  if isNaN x then sign + 0x7fc00000
  else if isInfinite x then sign + 0x7f800000
  else
    let lift := scale x + (mantissa x).log2 - 949
    let code := lift <<< 23 + roundShift (mantissa x) (lift + 926 - scale x)
    sign + min code 0x7f800000

/-- The lane of a single-precision number given by its 32 bits. -/
def ofSingleBits (n : Nat) : Float :=
  let sign := n >>> 31 <<< 63
  let field := (n >>> 23) % 256
  let frac := n % 1 <<< 23
  if field = 255 then
    ofBits (sign + 2047 <<< 52 + frac <<< 29)
  else
    let m := if field = 0 then frac else frac + 1 <<< 23
    if m = 0 then ofBits sign
    else
      let top := m.log2
      ofBits (sign + (top + max field 1 + 872) <<< 52 + m <<< (52 - top))

/-- Rounds to single precision and widens again. -/
def roundToSingle (x : Float) : Float := ofSingleBits (toSingleBits x)

end BufferFusion.Lane

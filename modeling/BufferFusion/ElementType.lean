import BufferFusion.Lane

/-!
# Element types

The number types a tensor can hold, and what becomes of a lane that is stored in one of them.
-/
namespace BufferFusion

inductive ElementType where
  | f32 | f16 | i64 | i32 | u8
  deriving DecidableEq, Repr, Inhabited

namespace ElementType

def name : ElementType → String
  | f32 => "f32"
  | f16 => "f16"
  | i64 => "i64"
  | i32 => "i32"
  | u8 => "u8"

/-- Bytes of one element. -/
def size : ElementType → Nat
  | f32 | i32 => 4
  | f16 => 2
  | i64 => 8
  | u8 => 1

def isFloat : ElementType → Bool
  | f32 | f16 => true
  | i64 | i32 | u8 => false

/-- Cuts to `0..255`; a lane that is no number and a negative zero pass. -/
def clampByte (x : Float) : Float :=
  if x < 0 then 0 else if 255 < x then 255 else x

/-- The lane an element of the type is carried in after `x` is stored: integers drop the
fraction, bytes also saturate, single precision rounds. -/
def convert : ElementType → Float → Float
  | f32, x => Lane.roundToSingle x
  | f16, x => x
  | i64, x | i32, x => Lane.truncate x
  | u8, x => clampByte (Lane.truncate x)

end ElementType
end BufferFusion

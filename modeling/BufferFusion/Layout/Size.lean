import BufferFusion.Size

/-!
# Sizes of layouts

How many elements a shape has, which layouts are sound, and what a layout takes in its buffer:
the stored dims count the padding and round the blocked axis up to whole blocks.
-/
namespace BufferFusion

namespace Dim

/-- The sum of two dims, unknown if either is. -/
def add : Dim → Dim → Result Dim
  | known a, known b => known <$> Size.add a b
  | _, _ => .ok unknown

/-- The product of the dims, from the left; `none` from the first unknown dim on. -/
def count : Nat → List Dim → Result (Option Nat)
  | n, [] => .ok (some n)
  | _, unknown :: _ => .ok none
  | n, known d :: ds => do count (← Size.mul n d) ds

end Dim

namespace Shape

def count (s : Shape) : Result (Option Nat) := Dim.count 1 s.dims

/-- A new dim before the one at `axis`, or at the end. -/
def insertAt (s : Shape) (axis : Nat) (d : Dim) : Result Shape :=
  if axis ≤ s.rank then .ok (s.insert axis d) else Result.fault .outOfRange

def setAt (s : Shape) (axis : Nat) (d : Dim) : Result Shape :=
  if axis < s.rank then .ok (s.set axis d) else Result.fault .outOfRange

/-- The dim taken out and the shape that is left. -/
def removeAt (s : Shape) (axis : Nat) : Result (Dim × Shape) :=
  match s.dims[axis]? with
  | some d => .ok (d, s.remove axis)
  | none => Result.fault .outOfRange

/-- The unknown shape of a rank; a dim takes sixteen bytes of the host's memory. -/
def ofRank (rank : Nat) : Result Shape := do
  Size.reserve 16 rank
  return .unknowns rank

end Shape

namespace Padding

/-- Static padding given by two lists of one length. -/
def ofBounds (lower upper : List Nat) : Result Padding :=
  if lower.length = upper.length then .ok ⟨List.zipWith AxisPadding.fixed lower upper⟩
  else .error (.paddingRanks lower.length upper.length)

def ofRank (rank : Nat) : Result Padding := do
  Size.reserve 8 rank
  return zero rank

/-- Replaces the padding of an axis that has to be there. -/
def place (p : Padding) (axis : Nat) (a : AxisPadding) : Result Padding :=
  if axis < p.rank then .ok (p.set axis a) else Result.fault .outOfRange

def growAxes : List AxisPadding → List (Nat × Nat) → Result (List AxisPadding)
  | axes, [] => .ok axes
  | [], _ :: _ => Result.fault .outOfRange
  | a :: axes, (l, u) :: rest => do
    let lower ← Size.add a.lower l
    let upper ← Size.add a.upper u
    return { a with lower, upper } :: (← growAxes axes rest)

/-- Adds extra padding to the first axes, as many as both lists have. -/
def grow (p : Padding) (lower upper : List Nat) : Result Padding :=
  Padding.mk <$> growAxes p.axes (lower.zip upper)

end Padding

namespace Layout

def count (l : Layout) : Result (Option Nat) := l.shape.count

/-- Format and padding fit the shape. -/
def validate (l : Layout) : Result Unit :=
  if l.format.holdsRank l.rank = false then .error (.formatRank l.format l.rank)
  else if l.padding.rank ≠ l.rank then .error (.paddingRank l.padding.rank l.rank)
  else .ok ()

def isValid (l : Layout) : Bool := l.format.holdsRank l.rank && l.padding.rank == l.rank

/-- Whether a buffer can be laid out so. In a blocked format the lower padding of the blocked axis
has to end on a block boundary; dynamic padding cannot be judged yet and passes. -/
def isAllocatable (l : Layout) : Bool :=
  l.isValid &&
    match l.format.block? with
    | some (axis, size) =>
      l.padding.isDynamic axis || (l.padding.lower[axis]?.getD 0) % size == 0
    | none => true

/-- The same elements as one row. Padding is not carried over. -/
def flat (l : Layout) : Result Layout := do
  let dim := match ← l.count with
    | some n => Dim.known n
    | none => .unknown
  return unpadded ⟨[dim]⟩ l.element (if l.format.isBlocked then l.format else .bfyx)

def surround : List Nat → List AxisPadding → Result (List Nat)
  | [], _ => .ok []
  | _ :: _, [] => Result.fault .outOfRange
  | d :: ds, a :: axes => do
    let n ← Size.add (← Size.add d a.lower) a.upper
    return n :: (← surround ds axes)

/-- Rounds one axis, if it is there, up to whole blocks. -/
def roundBlocks (axis size : Nat) (dims : List Nat) : Result (List Nat) :=
  match dims[axis]? with
  | none => .ok dims
  | some n => do return dims.set axis (← Size.mul ((n + size - 1) / size) size)

/-- The dims of the buffer, padding and whole blocks included. -/
def storedDims (l : Layout) : Result (List Nat) :=
  match l.shape.sizes? with
  | none => .error (.shapeNotStatic l.shape)
  | some sizes =>
    if l.padding.hasDynamic then .error (.paddingNotResolved l)
    else do
      let padded ← surround sizes l.padding.axes
      match l.format.block? with
      | some (axis, size) => roundBlocks axis size padded
      | none => return padded

/-- The number of elements that the buffer has to hold. -/
def footprint (l : Layout) : Result Nat := do Size.product (← l.storedDims)

theorem validate_eq_ok_iff (l : Layout) : l.validate = .ok () ↔ l.isValid = true := by
  simp only [validate, isValid]
  split
  · simp_all
  · split <;> simp_all

end Layout
end BufferFusion

import BufferFusion.Layout.Size

/-!
# Reshaping

The shape that a pattern asks for. `-1` stands for the dim that makes the element counts equal,
`0` may copy the input's dim on the same axis. What cannot be settled yet stays unknown.
-/
namespace BufferFusion.Shape

/-- Reads `values`, the rest of `pattern` from `axis` on. The answer is the dims, an unknown one
in the place of a `-1`, and the axis of the `-1`, which is `inferred` where it came before. -/
def patternDims (input : Shape) (pattern : List Int) (copyZeros : Bool) :
    Nat → Option Nat → List Int → Result (List Dim × Option Nat)
  | _, inferred, [] => .ok ([], inferred)
  | axis, inferred, v :: values =>
    if v = -1 then
      if inferred.isSome then .error (.misfit (.severalInferred pattern))
      else do
        let (dims, found) ← patternDims input pattern copyZeros (axis + 1) (some axis) values
        return (.unknown :: dims, found)
    else if v = 0 ∧ copyZeros then
      match input.dims[axis]? with
      | none => .error (.misfit (.copiesMissing pattern axis))
      | some d => do
        let (dims, found) ← patternDims input pattern copyZeros (axis + 1) inferred values
        return (d :: dims, found)
    else if v < 0 then .error (.misfit (.invalidValue pattern v))
    else do
      let (dims, found) ← patternDims input pattern copyZeros (axis + 1) inferred values
      return (.known v.toNat :: dims, found)

/-- The shape of `input` after a reshape with `pattern`. -/
def reshape (input : Shape) (pattern : List Int) (copyZeros : Bool) : Result Shape := do
  let (dims, inferred) ← patternDims input pattern copyZeros 0 none pattern
  let count ← input.count
  let others := match inferred with
    | some axis => dims.eraseIdx axis
    | none => dims
  let product ← Dim.count 1 others
  match inferred, count, product with
  | some axis, some n, some p =>
    if p = 0 ∨ n % p ≠ 0 then .error (.misfit (.indivisible input n pattern))
    else return ⟨dims.set axis (.known (n / p))⟩
  | none, some n, some p =>
    if n = p then return ⟨dims⟩ else .error (.misfit (.countDiffers input n p))
  | _, _, _ => return ⟨dims⟩

end BufferFusion.Shape
